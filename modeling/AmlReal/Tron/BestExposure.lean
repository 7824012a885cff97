import Mathlib.Algebra.BigOperators.Group.List.Basic
import Mathlib.Analysis.SpecialFunctions.Pow.Real
import Mathlib.Tactic.Linarith
import Mathlib.Tactic.NormNum
import Mathlib.Tactic.Ring
import AmlReal.Foundations.BestRoutes
import AmlReal.Tron.ExposurePropagation

/-! # The best exposure of an address

A row's score is the greatest product of edge factors over all paths of funds from
the seed. Where a path may continue depends on its end, its asset and its last
block only, so the best arrival at each of these is all the search has to keep. -/

namespace AmlReal.Tron.BestExposure
open AmlReal.Foundations AmlReal.Foundations.Checks AmlReal.Foundations.EntryList
open AmlReal.Foundations.BestRoutes AmlReal.Foundations.LimitBy AmlReal.Tron.ExposurePropagation

/-! ## Paths of funds -/

/-- The relationships lead from one address to another. -/
def Leads : String → List Relationship → String → Prop
  | start, [], finish => start = finish
  | start, ar :: rest, finish => ar.fromAddress = start ∧ Leads ar.toAddress rest finish

/-- Funds keep their asset and move on in a later block. -/
def MovesOn (a b : Relationship) : Prop := b.tokenAddress = a.tokenAddress ∧ a.blockNumber < b.blockNumber

/-- A transfer that counts: of an accepted type, in a complete block, to another address than its
own and the seed. -/
structure Counts (db : Tables) (seed : String) (ar : Relationship) : Prop where
  stored : ar ∈ db.relationships
  accepted : ar.transferType ∈ transferTypes
  complete : ar.blockNumber ∈ db.completeBlocks
  moves : ar.toAddress ≠ ar.fromAddress
  away : ar.toAddress ≠ seed

structure Trail (db : Tables) (seed : String) (path : List Relationship) (finish : String) : Prop where
  counts : ∀ ar ∈ path, Counts db seed ar
  leads : Leads seed path finish
  continues : path.IsChain MovesOn

/-- A path that exposes an address to the seed; only its last transfer may go to a service. -/
structure FundPath (db : Tables) (seed : String) (maxHops : Nat) (path : List Relationship)
    (exposed : String) : Prop where
  trail : Trail db seed path exposed
  nonempty : path ≠ []
  short : path.length ≤ maxHops
  direct : ∀ ar ∈ path.dropLast, ar.toAddress ∉ db.exchangeWallets

section
variable {α : Type} [Field α] [LinearOrder α] (run : Run α)

/-- What is left of a score after a transfer. -/
def edgeFactor (ar : Relationship) : α :=
  HOP_DECAY * amountWeight run.functions (edgeRow run.db ar.fromAddress ar).amountShare *
    timeWeight run.functions run.nowUnixMs ar.timestamp *
    if ar.toAddress ∈ run.db.exchangeWallets then SERVICE_MEDIATION_FACTOR else 1

def pathScore (path : List Relationship) : α := (path.map (edgeFactor run)).prod

/-- The search as one for best routes; a state is an address with the asset and block of its funds. -/
def net (maxHops : Nat) : Net (String × Option (String × Nat)) Relationship String α where
  start := (run.seedAddress, none)
  out k := (outgoing run.db k.1 k.2).filter fun ar => ar.blockNumber ∈ run.db.completeBlocks ∧
    ar.toAddress ≠ k.1 ∧ ar.toAddress ≠ run.seedAddress
  dest ar := ar.toAddress
  onward ar := if ar.toAddress ∈ run.db.exchangeWallets then none
    else some (ar.toAddress, some (ar.tokenAddress, ar.blockNumber))
  factor _ ar := edgeFactor run ar
  bound := maxHops

end

/-! ## Scores -/

section
variable {α : Type} [LinearOrder α]

theorem clamp_mem (x : α) {low high : α} (h : low ≤ high) :
    low ≤ clamp x low high ∧ clamp x low high ≤ high := by
  unfold clamp
  split_ifs with hlow hhigh
  · exact ⟨le_refl low, h⟩
  · exact ⟨h, le_refl high⟩
  · exact ⟨not_lt.mp hlow, not_lt.mp hhigh⟩

theorem clamp_id {x low high : α} (hlow : low ≤ x) (hhigh : x ≤ high) : clamp x low high = x := by
  unfold clamp
  rw [if_neg (not_lt.mpr hlow), if_neg (not_lt.mpr hhigh)]

end

section
variable {α : Type} [Field α] [LinearOrder α] [IsStrictOrderedRing α]

theorem amountWeight_mem (f : Functions α) (share : α) :
    0 < amountWeight f share ∧ amountWeight f share ≤ 1 := by
  obtain ⟨hlow, hhigh⟩ := clamp_mem (1 / 4 + 3 / 4 * f.sqrt (clamp share 0 1))
    (show (1 / 4 : α) ≤ 1 by norm_num)
  exact ⟨lt_of_lt_of_le (by norm_num) hlow, hhigh⟩

theorem timeWeight_mem (f : Functions α) (now event : Nat) :
    0 < timeWeight f now event ∧ timeWeight f now event ≤ 1 := by
  obtain ⟨hlow, hhigh⟩ := clamp_mem (f.halfPow (((now - event : Nat) : α) / HALF_LIFE_MS))
    (show (1 / 20 : α) ≤ 1 by norm_num)
  exact ⟨lt_of_lt_of_le (by norm_num) hlow, hhigh⟩

theorem mul_mem {x y : α} (hx : 0 < x ∧ x ≤ 1) (hy : 0 < y ∧ y ≤ 1) : 0 < x * y ∧ x * y ≤ 1 :=
  ⟨mul_pos hx.1 hy.1, mul_le_one₀ hx.2 hy.1.le hy.2⟩

theorem serviceWeight_mem (service : Prop) [Decidable service] :
    0 < (if service then SERVICE_MEDIATION_FACTOR else 1 : α) ∧
      (if service then SERVICE_MEDIATION_FACTOR else 1 : α) ≤ 1 := by
  split_ifs
  · unfold SERVICE_MEDIATION_FACTOR
    constructor <;> norm_num
  · exact ⟨zero_lt_one, le_refl 1⟩

theorem edgeFactor_mem (run : Run α) (ar : Relationship) :
    0 < edgeFactor run ar ∧ edgeFactor run ar ≤ 1 := by
  have hdecay : 0 < (HOP_DECAY : α) ∧ (HOP_DECAY : α) ≤ 1 := by
    unfold HOP_DECAY
    constructor <;> norm_num
  exact mul_mem (mul_mem (mul_mem hdecay (amountWeight_mem _ _)) (timeWeight_mem _ _ _))
    (serviceWeight_mem _)

/-- The scorer multiplies with the factor of the edge: no clamp bites. -/
theorem edgeExposureScore_eq (run : Run α) {address : String} {ar : Relationship}
    (hfrom : ar.fromAddress = address) {score : α} (hscore : 0 < score ∧ score ≤ 1) :
    edgeExposureScore run.functions score (edgeRow run.db address ar).amountShare
      (timeWeight run.functions run.nowUnixMs (edgeRow run.db address ar : ExposureEdgeRow α).timestamp)
      ((edgeRow run.db address ar : ExposureEdgeRow α).serviceMediated = 1) =
      score * edgeFactor run ar := by
  subst hfrom
  have hservice : ((edgeRow run.db ar.fromAddress ar : ExposureEdgeRow α).serviceMediated = 1) ↔
      ar.toAddress ∈ run.db.exchangeWallets := by
    simp [edgeRow]
  have htime := timeWeight_mem run.functions run.nowUnixMs ar.timestamp
  have hproduct : 0 < score * edgeFactor run ar ∧ score * edgeFactor run ar ≤ 1 :=
    mul_mem hscore (edgeFactor_mem run ar)
  unfold edgeExposureScore
  simp only [decide_eq_true_eq, hservice]
  rw [clamp_id hscore.1.le hscore.2]
  show clamp (score * HOP_DECAY * amountWeight run.functions _ *
    clamp (timeWeight run.functions run.nowUnixMs ar.timestamp) 0 1 * _) 0 1 = _
  rw [clamp_id htime.1.le htime.2, ← clamp_id hproduct.1.le hproduct.2, edgeFactor]
  congr 1
  ring

end

/-! ## One state of the search -/

section
variable {α : Type} [LinearOrder α]

def entryOf (state : Queued α) : Entry (String × Option (String × Nat)) α :=
  ⟨(state.current, state.arrival), state.currentScore, state.hops⟩

/-- The best score of a state; the seed itself is never arrived at. -/
def bestOf (s : Searching α) : String × Option (String × Nat) → Option α
  | (_, none) => none
  | (address, some (token, block)) => get s.bestScores (address, token, block)

def scoreOf (s : Searching α) (address : String) : Option α :=
  (get s.aggregates address).map ExposureAggregate.exposureScore

/-- The score of an aggregate is the greatest one so far. -/
theorem aggregate_score (edge : ExposureEdgeRow α) (nextHop : Nat) (weight score : α)
    (old : Option (ExposureAggregate α)) :
    (aggregate edge nextHop weight score old).exposureScore =
      max ((old.map ExposureAggregate.exposureScore).getD score) score := by
  unfold aggregate
  cases old with
  | none => simp
  | some a =>
    simp only [Option.getD_some, Option.map_some]
    split_ifs with hlt
    · exact (max_eq_right hlt.le).symm
    · exact (max_eq_left (not_lt.mp hlt)).symm

/-- The state once an edge is counted in the aggregate of its address. -/
def counted (s : Searching α) (edge : ExposureEdgeRow α) (nextHop : Nat) (weight score : α) :
    Searching α :=
  { s with
    aggregates := put s.aggregates edge.toAddress
      (aggregate edge nextHop weight score (get s.aggregates edge.toAddress)) }

theorem scoreOf_counted (s : Searching α) (edge : ExposureEdgeRow α) (nextHop : Nat)
    (weight score : α) (address : String) :
    scoreOf (counted s edge nextHop weight score) address =
      if address = edge.toAddress then some (max ((scoreOf s edge.toAddress).getD score) score)
      else scoreOf s address := by
  unfold scoreOf counted
  rw [get_put]
  split_ifs
  · rw [Option.map_some, aggregate_score]
  · rfl

/-- What counting one edge does to the scores. -/
theorem scores_counted (s : Searching α) (edge : ExposureEdgeRow α) (nextHop : Nat) (weight score : α) :
    (∀ r x, scoreOf (counted s edge nextHop weight score) r = some x →
      scoreOf s r = some x ∨ (edge.toAddress = r ∧ x = score)) ∧
    (∃ x, scoreOf (counted s edge nextHop weight score) edge.toAddress = some x ∧ score ≤ x) ∧
    Raises (scoreOf s) (scoreOf (counted s edge nextHop weight score)) := by
  have hscore := scoreOf_counted s edge nextHop weight score
  refine ⟨fun r x hx => ?_, ⟨_, by rw [hscore, if_pos rfl], le_max_right _ _⟩, fun r x hx => ?_⟩
  · rw [hscore] at hx
    split_ifs at hx with hr
    · subst hr
      have hmax := (Option.some.inj hx).symm
      cases hold : scoreOf s edge.toAddress with
      | none =>
        rw [hold, Option.getD_none, max_self] at hmax
        exact Or.inr ⟨rfl, hmax⟩
      | some a =>
        rw [hold, Option.getD_some] at hmax
        rcases max_choice a score with h | h
        · exact Or.inl (by rw [hmax, h])
        · exact Or.inr ⟨rfl, hmax.trans h⟩
    · exact Or.inl hx
  · rw [hscore]
    split_ifs with hr
    · subst hr
      exact ⟨_, rfl, by rw [hx]; exact le_max_left _ _⟩
    · exact ⟨x, hx, le_refl x⟩

/-- An edge that does not go to the state itself or to the seed. -/
def leaves (seed : String) (state : Queued α) (ar : Relationship) : Bool :=
  ar.toAddress ≠ state.current ∧ ar.toAddress ≠ seed

/-- The state once an edge queued its end. -/
def arrived (s : Searching α) (edge : ExposureEdgeRow α) (nextHop : Nat) (score : α) : Searching α :=
  { s with
    bestScores := put s.bestScores (edge.toAddress, edge.tokenAddress, edge.blockNumber) score
    queue := s.queue ++ [⟨edge.toAddress, score, nextHop, some (edge.tokenAddress, edge.blockNumber)⟩] }

omit [LinearOrder α] in
theorem bestOf_arrived (s : Searching α) (edge : ExposureEdgeRow α) (nextHop : Nat) (score : α)
    (k : String × Option (String × Nat)) :
    bestOf (arrived s edge nextHop score) k =
      if k = (edge.toAddress, some (edge.tokenAddress, edge.blockNumber)) then some score
      else bestOf s k := by
  obtain ⟨address, _ | ⟨token, block⟩⟩ := k
  · simp [bestOf]
  · simp only [bestOf, arrived, get_put, Prod.mk.injEq, Option.some.injEq]

end

section
variable {α : Type} [Field α] [LinearOrder α] {run : Run α} {maxHops : Nat}

/-- What the loop over some edges of a state did. -/
structure Looked (run : Run α) (maxHops : Nat) (state : Queued α) (edges : List Relationship)
    (s s' : Searching α) (kids : List (Queued α)) : Prop where
  queue : s'.queue = s.queue ++ kids
  few : kids.length ≤ edges.length
  expanded : s'.expanded = s.expanded
  keyed : Keyed s.aggregates → Keyed s'.aggregates
  relaxed : Relaxed (net run maxHops) (entryOf state) (edges.filter (leaves run.seedAddress state))
    (bestOf s) (bestOf s') (scoreOf s) (scoreOf s') (kids.map entryOf)

theorem Looked.nil (state : Queued α) (s : Searching α) : Looked run maxHops state [] s s [] :=
  ⟨(List.append_nil _).symm, le_refl _, rfl, id, .nil⟩

theorem Looked.append {state : Queued α} {edges others : List Relationship} {s s' s'' : Searching α}
    {kids more : List (Queued α)} (h : Looked run maxHops state edges s s' kids)
    (h' : Looked run maxHops state others s' s'' more) :
    Looked run maxHops state (edges ++ others) s s'' (kids ++ more) where
  queue := by rw [h'.queue, h.queue, List.append_assoc]
  few := by
    rw [List.length_append, List.length_append]
    exact Nat.add_le_add h.few h'.few
  expanded := h'.expanded.trans h.expanded
  keyed := h'.keyed ∘ h.keyed
  relaxed := by
    rw [List.filter_append, List.map_append]
    exact h.relaxed.append h'.relaxed

end

section
variable {α : Type} [Field α] [LinearOrder α] [IsStrictOrderedRing α] {run : Run α} {maxHops : Nat}

/-- The loop over the edges of a state, one edge. -/
theorem Looked.one {state : Queued α} {ar : Relationship}
    (hscore : 0 < state.currentScore ∧ state.currentScore ≤ 1) {s : Searching α}
    (hleaves : leaves run.seedAddress state ar = true) (weight : α) :
    let edge : ExposureEdgeRow α := edgeRow run.db state.current ar
    let score := state.currentScore * edgeFactor run ar
    let s₁ := counted s edge (state.hops + 1) weight score
    let best := (get s.bestScores (ar.toAddress, ar.tokenAddress, ar.blockNumber)).getD 0
    (mayExpand edge.serviceMediated = true ∧ best < score →
      ∃ kids, Looked run maxHops state [ar] s (arrived s₁ edge (state.hops + 1) score) kids) ∧
    (¬ (mayExpand edge.serviceMediated = true ∧ best < score) →
      Looked run maxHops state [ar] s s₁ []) := by
  intro edge score s₁ best
  have hpos : 0 < score := mul_pos hscore.1 (edgeFactor_mem run ar).1
  obtain ⟨hfound, hcovered, himproved⟩ := scores_counted s edge (state.hops + 1) weight score
  have hservice : mayExpand edge.serviceMediated = true ↔ ar.toAddress ∉ run.db.exchangeWallets := by
    simp [mayExpand, edge, edgeRow]
  have honward : (net run maxHops).onward ar = if ar.toAddress ∈ run.db.exchangeWallets then none
      else some (ar.toAddress, some (ar.tokenAddress, ar.blockNumber)) := rfl
  have hedges : [ar].filter (leaves run.seedAddress state) = [ar] :=
    List.filter_eq_self.mpr fun e he => List.mem_singleton.mp he ▸ hleaves
  have hkeyed : Keyed s.aggregates → Keyed s₁.aggregates := fun h => h.put _ _
  constructor
  · rintro ⟨hexpand, hbetter⟩
    have hnext := honward.trans (if_neg (hservice.mp hexpand))
    have hbest := bestOf_arrived s₁ edge (state.hops + 1) score
    refine ⟨_, ⟨rfl, le_refl _, rfl, hkeyed, ?_⟩⟩
    rw [hedges]
    refine ⟨fun q hq => ?_, fun k x hx => ?_, fun e he k hk => ?_, fun k x hx => ?_, fun r x hx => ?_,
      fun e he => ?_, himproved⟩
    · rw [List.map_singleton, List.mem_singleton] at hq
      subst hq
      exact ⟨rfl, ar, List.mem_singleton_self _, hnext, rfl⟩
    · rw [hbest] at hx
      split_ifs at hx with hk
      · exact Or.inr ⟨_, List.mem_singleton_self _, hk.symm, Option.some.inj hx⟩
      · exact Or.inl hx
    · rw [List.mem_singleton.mp he] at hk ⊢
      rw [hnext] at hk
      obtain rfl := Option.some.inj hk
      exact ⟨score, by rw [hbest]; exact if_pos rfl, le_refl _⟩
    · rw [hbest]
      split_ifs with hk
      · subst hk
        refine ⟨score, rfl, ?_⟩
        have hold : get s.bestScores (ar.toAddress, ar.tokenAddress, ar.blockNumber) = some x := hx
        rw [show best = x from by simp [best, hold]] at hbetter
        exact hbetter.le
      · exact ⟨x, hx, le_refl x⟩
    · exact (hfound r x hx).imp_right fun ⟨hr, hx⟩ => ⟨ar, List.mem_singleton_self _, hr, hx⟩
    · rw [List.mem_singleton.mp he]
      exact hcovered
  · intro hpruned
    refine ⟨(List.append_nil _).symm, Nat.zero_le _, rfl, hkeyed, ?_⟩
    rw [hedges]
    refine ⟨fun q hq => absurd hq List.not_mem_nil, fun k x hx => Or.inl hx, fun e he k hk => ?_,
      .refl _, fun r x hx => ?_, fun e he => ?_, himproved⟩
    · rw [List.mem_singleton.mp he, honward] at hk
      rw [List.mem_singleton.mp he]
      split_ifs at hk with hwallet
      obtain rfl := Option.some.inj hk
      have hle : score ≤ best := not_lt.mp fun hlt => hpruned ⟨hservice.mpr hwallet, hlt⟩
      show ∃ x, get s.bestScores (ar.toAddress, ar.tokenAddress, ar.blockNumber) = some x ∧ score ≤ x
      cases hold : get s.bestScores (ar.toAddress, ar.tokenAddress, ar.blockNumber) with
      | none => exact absurd (hle.trans (by simp [best, hold])) (not_le.mpr hpos)
      | some x => exact ⟨x, rfl, hle.trans (by simp [best, hold])⟩
    · exact (hfound r x hx).imp_right fun ⟨hr, hx⟩ => ⟨ar, List.mem_singleton_self _, hr, hx⟩
    · rw [List.mem_singleton.mp he]
      exact hcovered

omit [IsStrictOrderedRing α] in
theorem visit_skip {state : Queued α} {edge : ExposureEdgeRow α} {rest : List (ExposureEdgeRow α)}
    {s : Searching α} (h : edge.toAddress = state.current ∨ edge.toAddress = run.seedAddress) :
    visit run state (edge :: rest) s = visit run state rest s := by
  rw [visit, if_pos (Or.inr h)]

omit [IsStrictOrderedRing α] in
/-- One round of the loop, with the score that the scorer gives. -/
theorem visit_cons {state : Queued α} {edge : ExposureEdgeRow α} {rest : List (ExposureEdgeRow α)}
    {s s' : Searching α} {score : α} (hne : edge.toAddress ≠ "")
    (h : ¬ (edge.toAddress = state.current ∨ edge.toAddress = run.seedAddress))
    (hscore : edgeExposureScore run.functions state.currentScore edge.amountShare
      (timeWeight run.functions run.nowUnixMs edge.timestamp) (edge.serviceMediated = 1) = score)
    (hvisit : visit run state (edge :: rest) s = .ok s') :
    let s₁ := counted s edge (state.hops + 1)
      (timeWeight run.functions run.nowUnixMs edge.timestamp) score
    let best := (get s.bestScores (edge.toAddress, edge.tokenAddress, edge.blockNumber)).getD 0
    if mayExpand edge.serviceMediated = true ∧ best < score then
      visit run state rest (arrived s₁ edge (state.hops + 1) score) = .ok s'
    else visit run state rest s₁ = .ok s' := by
  intro s₁ best
  rw [visit, if_neg (not_or.mpr ⟨hne, h⟩)] at hvisit
  simp only [hscore] at hvisit
  by_cases htake : mayExpand edge.serviceMediated = true ∧ best < score
  · rw [if_pos htake]
    rw [if_pos (show _ ∧ best < score from htake)] at hvisit
    obtain ⟨_, _, hrest⟩ := bind_ok hvisit
    exact hrest
  · rw [if_neg htake]
    rw [if_neg (show ¬ (_ ∧ best < score) from htake)] at hvisit
    exact hvisit

theorem visit_looked {state : Queued α} (hscore : 0 < state.currentScore ∧ state.currentScore ≤ 1)
    {edges : List Relationship}
    (hedges : ∀ ar ∈ edges, ar.fromAddress = state.current) {s s' : Searching α}
    (h : visit run state (edges.map (edgeRow run.db state.current)) s = .ok s') :
    ∃ kids, Looked run maxHops state edges s s' kids := by
  induction edges generalizing s with
  | nil =>
    obtain rfl := Except.ok.inj h
    exact ⟨[], .nil state _⟩
  | cons ar rest ih =>
    have hrest : ∀ o ∈ rest, o.fromAddress = state.current := fun o ho =>
      hedges o (List.mem_cons_of_mem _ ho)
    rw [List.map_cons] at h
    by_cases hskip : ar.toAddress = state.current ∨ ar.toAddress = run.seedAddress
    · rw [visit_skip hskip] at h
      obtain ⟨kids, hlooked⟩ := ih hrest h
      refine ⟨kids, hlooked.queue, Nat.le_succ_of_le hlooked.few, hlooked.expanded, hlooked.keyed, ?_⟩
      rw [List.filter_cons_of_neg (by rcases hskip with h | h <;> simp [leaves, h])]
      exact hlooked.relaxed
    · have hleaves : leaves run.seedAddress state ar = true := by
        simpa [leaves] using not_or.mp hskip
      have hround := visit_cons ar.to_ne hskip
        (edgeExposureScore_eq run (hedges ar (List.mem_cons_self ..)) hscore) h
      simp only at hround
      obtain ⟨hbetter, hpruned⟩ := Looked.one hscore hleaves
        (timeWeight run.functions run.nowUnixMs ar.timestamp)
      split_ifs at hround with htake
      · obtain ⟨kids, hone⟩ := hbetter htake
        obtain ⟨more, hlooked⟩ := ih hrest hround
        exact ⟨_, hone.append hlooked⟩
      · obtain ⟨more, hlooked⟩ := ih hrest hround
        exact ⟨_, (hpruned htake).append hlooked⟩

/-! ## The whole search -/

/-- The search so far. -/
structure Searched (run : Run α) (maxHops : Nat) (s : Searching α) : Prop where
  keyed : Keyed s.aggregates
  pruned : ∃ seen, Pruned (net run maxHops) seen (s.queue.map entryOf) (bestOf s) (scoreOf s)

omit [IsStrictOrderedRing α] in
theorem Searched.start : Searched run maxHops (Searching.start run.seedAddress) := by
  refine ⟨Keyed.nil, [], ?_⟩
  have hinit : Pruned (net run maxHops) [] _ _ _ := Pruned.init
  have hbest : bestOf (Searching.start run.seedAddress : Searching α) = fun _ => none := by
    funext ⟨address, arrival⟩
    cases arrival <;> rfl
  rw [hbest]
  exact hinit

omit [IsStrictOrderedRing α] in
/-- The edges of a state that the search looks at are those of the net. -/
theorem loaded_edges {query : Nat} {state : Queued α} {edges : List (ExposureEdgeRow α)}
    (h : loadOutgoingEdges run query state.current state.arrival = .ok edges) :
    ∃ rows : List Relationship, edges = rows.map (edgeRow run.db state.current) ∧ rows.length ≤ MAX_EDGES_PER_ADDRESS ∧
      (∀ ar ∈ rows, ar.fromAddress = state.current) ∧
      (rows.filter (leaves run.seedAddress state)).Perm
        ((net run maxHops).out (state.current, state.arrival)) := by
  obtain ⟨_, hlimit, h⟩ := bind_ok h
  have hshort := ensure_ok hlimit
  have hperm := (byBlock_perm ((run.arrange query).order
    (outgoing run.db state.current state.arrival))).trans ((run.arrange query).perm _)
  rw [List.length_take] at hshort
  have hwhole : (byBlock ((run.arrange query).order
      (outgoing run.db state.current state.arrival))).take (MAX_EDGES_PER_ADDRESS + 1) =
      byBlock ((run.arrange query).order (outgoing run.db state.current state.arrival)) :=
    List.take_of_length_le (by omega)
  rw [hwhole] at h
  refine ⟨_, (Except.ok.inj h).symm, ?_, fun ar har => ?_, ?_⟩
  · exact (List.length_filter_le _ _).trans (by omega)
  · have hmem := hperm.mem_iff.mp (List.mem_filter.mp har).1
    have hsent := (List.mem_filter.mp hmem).2
    simp only [decide_eq_true_eq] at hsent
    exact hsent.1
  · rw [List.filter_filter]
    refine (hperm.filter _).trans (List.Perm.of_eq (List.filter_congr fun ar _ => ?_))
    simp only [leaves]
    grind

omit [IsStrictOrderedRing α] in
/-- A look at the state in front, or a state that is passed over. -/
theorem Searched.next {s s' : Searching α} {state : Queued α} {queue kids : List (Queued α)}
    (h : Searched run maxHops s) (hqueue : s.queue = state :: queue)
    {rows : List Relationship} {count : Nat}
    (hlooked : Looked run maxHops state rows { s with queue := queue, expanded := count } s' kids)
    (hin : state.hops < maxHops → (rows.filter (leaves run.seedAddress state)).Perm
      ((net run maxHops).out (state.current, state.arrival)))
    (hout : ¬ state.hops < maxHops → rows = []) : Searched run maxHops s' := by
  obtain ⟨hkeyed, seen, hpruned⟩ := h
  rw [hqueue, List.map_cons] at hpruned
  refine ⟨hlooked.keyed hkeyed, entryOf state :: seen, ?_⟩
  rw [hlooked.queue, List.map_append]
  exact hpruned.look hlooked.relaxed (fun hlt e => (hin hlt).mem_iff) fun hle => by rw [hout hle]; rfl

theorem Searched.score_mem {s : Searching α} {state : Queued α} {queue : List (Queued α)}
    (h : Searched run maxHops s) (hqueue : s.queue = state :: queue) :
    0 < state.currentScore ∧ state.currentScore ≤ 1 := by
  obtain ⟨_, seen, hpruned⟩ := h
  rw [hqueue, List.map_cons] at hpruned
  exact (hpruned.sound (entryOf state) (by simp)).mem_unit fun _ ar => edgeFactor_mem run ar

/-- The rounds that a state of the search may still take. -/
def remaining (s : Searching α) : Nat :=
  (MAX_EXPANDED_ADDRESSES - s.expanded) * (MAX_EDGES_PER_ADDRESS + 1) + s.queue.length

/-- The search ends, with a limit or with nothing left to look at. -/
theorem search_finished (fuel : Nat) {s : Searching α} (h : Searched run maxHops s)
    (hfuel : remaining s < fuel) : ∃ r, search run maxHops fuel s = some r ∧
      ∀ s', r = .ok s' → Searched run maxHops s' ∧ s'.queue = [] := by
  induction fuel generalizing s with
  | zero => omega
  | succ fuel ih =>
    unfold search
    split
    · rename_i hqueue
      refine ⟨_, rfl, fun s' hs => ?_⟩
      cases hs
      exact ⟨h, hqueue⟩
    · rename_i state queue hqueue
      have hlength : s.queue.length = queue.length + 1 := by rw [hqueue, List.length_cons]
      by_cases hdeep : maxHops ≤ state.hops
      · rw [if_pos hdeep]
        refine ih (h.next hqueue (.nil state _) (fun hlt => absurd hdeep (Nat.not_le_of_lt hlt))
          fun _ => rfl) ?_
        unfold remaining at hfuel ⊢
        show (MAX_EXPANDED_ADDRESSES - s.expanded) * _ + queue.length < fuel
        omega
      · rw [if_neg hdeep]
        simp only
        split
        · exact ⟨_, rfl, fun s' hs => (by cases hs)⟩
        · rename_i s' hlook
          obtain ⟨_, hroom, hlook⟩ := bind_ok hlook
          have hroom := ensure_ok hroom
          obtain ⟨edges, hload, hvisit⟩ := bind_ok hlook
          obtain ⟨rows, rfl, hfew, hfrom, hperm⟩ := loaded_edges hload
          obtain ⟨kids, hlooked⟩ := visit_looked (h.score_mem hqueue) hfrom hvisit
          refine ih (h.next hqueue hlooked (fun _ => hperm)
            fun hle => absurd (Nat.lt_of_not_le hdeep) hle) ?_
          -- an expanded state takes away more rounds than its edges add states
          have hkids := hlooked.few
          have hcount : s'.expanded = s.expanded + 1 := hlooked.expanded
          have hqueue' : s'.queue = queue ++ kids := hlooked.queue
          obtain ⟨left, hleft⟩ : ∃ left, MAX_EXPANDED_ADDRESSES - s.expanded = left + 1 :=
            ⟨MAX_EXPANDED_ADDRESSES - s.expanded - 1, by omega⟩
          have hleft' : MAX_EXPANDED_ADDRESSES - s'.expanded = left := by omega
          unfold remaining at hfuel ⊢
          rw [hleft, Nat.add_mul, Nat.one_mul] at hfuel
          rw [hleft', hqueue', List.length_append]
          omega

end

/-! ## Routes are paths of funds -/

/-- What a path's next transfer has to follow. -/
def arrivalOf (path : List Relationship) : Option (String × Nat) :=
  path.getLast?.map fun ar => (ar.tokenAddress, ar.blockNumber)

theorem leads_concat {start finish : String} {path : List Relationship} {ar : Relationship} :
    Leads start (path ++ [ar]) finish ↔ Leads start path ar.fromAddress ∧ ar.toAddress = finish := by
  induction path generalizing start with
  | nil => exact and_congr_left fun _ => eq_comm
  | cons o rest ih => exact (and_congr_right fun _ => ih).trans and_assoc.symm

theorem continues_concat {path : List Relationship} {ar : Relationship} :
    (path ++ [ar]).IsChain MovesOn ↔ path.IsChain MovesOn ∧ follows (arrivalOf path) ar = true := by
  rw [List.isChain_append]
  refine and_congr_right fun _ => ?_
  unfold arrivalOf follows
  cases path.getLast? with
  | none => simp
  | some o => simp [MovesOn]

theorem trail_concat {db : Tables} {seed finish : String} {path : List Relationship}
    {ar : Relationship} : Trail db seed (path ++ [ar]) finish ↔
      Trail db seed path ar.fromAddress ∧ Counts db seed ar ∧ follows (arrivalOf path) ar = true ∧
        ar.toAddress = finish := by
  constructor
  · rintro ⟨hcounts, hleads, hcontinues⟩
    obtain ⟨hpath, har⟩ := List.forall_mem_append.mp hcounts
    obtain ⟨hleads, hfinish⟩ := leads_concat.mp hleads
    obtain ⟨hcontinues, hfollows⟩ := continues_concat.mp hcontinues
    exact ⟨⟨hpath, hleads, hcontinues⟩, har ar (List.mem_singleton_self _), hfollows, hfinish⟩
  · rintro ⟨⟨hpath, hleads, hcontinues⟩, har, hfollows, hfinish⟩
    refine ⟨List.forall_mem_append.mpr ⟨hpath, fun o ho => List.mem_singleton.mp ho ▸ har⟩,
      leads_concat.mpr ⟨hleads, hfinish⟩, continues_concat.mpr ⟨hcontinues, hfollows⟩⟩

section
variable {α : Type} [Field α] [LinearOrder α] {run : Run α} {maxHops : Nat}

theorem pathScore_concat (path : List Relationship) (ar : Relationship) :
    pathScore run (path ++ [ar]) = pathScore run path * edgeFactor run ar := by
  simp [pathScore]

theorem mem_out {k : String × Option (String × Nat)} {ar : Relationship} :
    ar ∈ (net run maxHops).out k ↔
      ar.fromAddress = k.1 ∧ Counts run.db run.seedAddress ar ∧ follows k.2 ar = true := by
  simp only [net, outgoing, List.mem_filter, decide_eq_true_eq]
  constructor
  · rintro ⟨⟨hrow, hfrom, htype, hfollows⟩, hblock, hmoves, haway⟩
    exact ⟨hfrom, ⟨hrow, htype, hblock, hfrom ▸ hmoves, haway⟩, hfollows⟩
  · rintro ⟨hfrom, ⟨hrow, htype, hblock, hmoves, haway⟩, hfollows⟩
    exact ⟨⟨hrow, hfrom, htype, hfollows⟩, hblock, hfrom ▸ hmoves, haway⟩

theorem onward_some {ar : Relationship} {k : String × Option (String × Nat)} :
    (net run maxHops).onward ar = some k ↔ ar.toAddress ∉ run.db.exchangeWallets ∧
      k = (ar.toAddress, some (ar.tokenAddress, ar.blockNumber)) := by
  simp only [net]
  split_ifs with hwallet
  · simp [hwallet]
  · simp [hwallet, eq_comm]

theorem route_iff {n : Nat} {k : String × Option (String × Nat)} {x : α} :
    Route (net run maxHops) n k x ↔ ∃ path : List Relationship, path.length = n ∧
      Trail run.db run.seedAddress path k.1 ∧ (∀ ar ∈ path, ar.toAddress ∉ run.db.exchangeWallets) ∧
        k.2 = arrivalOf path ∧ x = pathScore run path := by
  constructor
  · intro h
    induction h with
    | start =>
      exact ⟨[], rfl, ⟨by simp, rfl, List.IsChain.nil⟩, by simp, rfl, rfl⟩
    | @step n k k' x ar _ hout honward ih =>
      obtain ⟨path, rfl, htrail, hdirect, harrival, rfl⟩ := ih
      obtain ⟨hfrom, hcounts, hfollows⟩ := mem_out.mp hout
      obtain ⟨hwallet, rfl⟩ := onward_some.mp honward
      refine ⟨path ++ [ar], by simp, trail_concat.mpr ⟨hfrom ▸ htrail, hcounts, harrival ▸ hfollows, rfl⟩,
        List.forall_mem_append.mpr ⟨hdirect, fun o ho => List.mem_singleton.mp ho ▸ hwallet⟩, ?_,
        (pathScore_concat path ar).symm⟩
      simp [arrivalOf]
  · rintro ⟨path, rfl, htrail, hdirect, harrival, rfl⟩
    induction path using List.reverseRecOn generalizing k with
    | nil =>
      obtain ⟨address, arrival⟩ := k
      obtain rfl : run.seedAddress = address := htrail.leads
      obtain rfl : arrival = none := harrival
      exact .start
    | append_singleton path ar ih =>
      obtain ⟨address, arrival⟩ := k
      obtain ⟨hpath, hcounts, hfollows, rfl⟩ := trail_concat.mp htrail
      obtain ⟨hbefore, hwallet⟩ := List.forall_mem_append.mp hdirect
      have hroute := ih (k := (ar.fromAddress, arrivalOf path)) hpath hbefore rfl
      obtain rfl : arrival = some (ar.tokenAddress, ar.blockNumber) := by
        simpa [arrivalOf] using harrival
      rw [List.length_append, pathScore_concat]
      exact .step hroute (mem_out.mpr ⟨rfl, hcounts, hfollows⟩)
        (onward_some.mpr ⟨hwallet ar (List.mem_singleton_self _), rfl⟩)

theorem found_iff {address : String} {x : α} : Found (net run maxHops) address x ↔
    ∃ path, FundPath run.db run.seedAddress maxHops path address ∧ x = pathScore run path := by
  constructor
  · rintro ⟨n, k, y, ar, hroute, hn, hout, rfl, rfl⟩
    obtain ⟨path, rfl, htrail, hdirect, harrival, rfl⟩ := route_iff.mp hroute
    obtain ⟨hfrom, hcounts, hfollows⟩ := mem_out.mp hout
    refine ⟨path ++ [ar], ⟨trail_concat.mpr ⟨hfrom ▸ htrail, hcounts, harrival ▸ hfollows, rfl⟩,
      by simp, ?_, ?_⟩, (pathScore_concat path ar).symm⟩
    · rw [List.length_append]
      exact hn
    · rwa [List.dropLast_concat]
  · rintro ⟨path, ⟨htrail, hne, hshort, hdirect⟩, rfl⟩
    obtain ⟨init, ar, rfl⟩ := (List.eq_nil_or_concat' path).resolve_left hne
    obtain ⟨hpath, hcounts, hfollows, rfl⟩ := trail_concat.mp htrail
    rw [List.dropLast_concat] at hdirect
    rw [List.length_append] at hshort
    exact ⟨init.length, (ar.fromAddress, arrivalOf init), pathScore run init, ar,
      route_iff.mpr ⟨init, rfl, hpath, hdirect, rfl, rfl⟩, hshort, mem_out.mpr ⟨rfl, hcounts, hfollows⟩,
      rfl, pathScore_concat init ar⟩

end

section
variable {α : Type} [Field α] [LinearOrder α] [IsStrictOrderedRing α]

/-- The propagation, in any ordered field and whatever order tied rows come in: it ends, and unless a
limit stops it, its rows are those of the addresses that a path of funds exposes, one for each, and
every score is the greatest one over all these paths. -/
theorem exposure_is_best (run : Run α) (hhops : 1 ≤ run.maxHops ∧ run.maxHops ≤ 10) :
    ∃ r, propagateExposure run = some r ∧ ∀ rows, r = .ok rows →
      (rows.map AddressExposureRow.exposedAddress).Nodup ∧
      (∀ address, (∃ row ∈ rows, row.exposedAddress = address) ↔
        ∃ path, FundPath run.db run.seedAddress run.maxHops path address) ∧
      ∀ row ∈ rows, IsGreatest {x | ∃ path, FundPath run.db run.seedAddress run.maxHops path
        row.exposedAddress ∧ x = pathScore run path} row.exposureScore := by
  have hclamp : clampHops run.maxHops = run.maxHops := by
    unfold clampHops
    omega
  have hstart : Searched run run.maxHops (Searching.start run.seedAddress) := .start
  have hrounds : remaining (Searching.start run.seedAddress : Searching α) < rounds := by
    show (MAX_EXPANDED_ADDRESSES - 0) * (MAX_EDGES_PER_ADDRESS + 1) + 1 < rounds
    decide
  obtain ⟨r, hr, hfinished⟩ := search_finished rounds hstart hrounds
  unfold propagateExposure
  rw [hclamp, hr]
  refine ⟨_, rfl, fun rows hrows => ?_⟩
  cases r with
  | error e => cases hrows
  | ok s =>
    obtain rfl := (Except.ok.inj hrows).symm
    obtain ⟨⟨hkeyed, seen, hpruned⟩, hempty⟩ := hfinished s rfl
    rw [hempty, List.map_nil] at hpruned
    have hcomplete := hpruned.complete fun _ ar => (edgeFactor_mem run ar).1.le
    have hperm : (sortRows (s.aggregates.map (exposureRow run))).Perm
        (s.aggregates.map (exposureRow run)) := List.perm_insertionSort _ _
    have hscore : ∀ {entry}, entry ∈ s.aggregates → scoreOf s entry.1 = some entry.2.exposureScore := by
      intro entry hentry
      unfold scoreOf EntryList.get
      rw [hkeyed.lookup_eq_some.mpr hentry]
      rfl
    refine ⟨?_, fun address => ?_, fun row hrow => ?_⟩
    · rw [(hperm.map _).nodup_iff, List.map_map]
      exact hkeyed
    · constructor
      · rintro ⟨row, hrow, rfl⟩
        obtain ⟨entry, hentry, rfl⟩ := List.mem_map.mp (hperm.mem_iff.mp hrow)
        obtain ⟨path, hpath, _⟩ := found_iff.mp ((hcomplete entry.1).1 _ (hscore hentry)).1
        exact ⟨path, hpath⟩
      · rintro ⟨path, hpath⟩
        obtain ⟨x, hx⟩ := (hcomplete address).2 ⟨_, found_iff.mpr ⟨path, hpath, rfl⟩⟩
        obtain ⟨a, ha, _⟩ := Option.map_eq_some_iff.mp hx
        exact ⟨exposureRow run (address, a),
          hperm.mem_iff.mpr (List.mem_map_of_mem (mem_of_lookup ha)), rfl⟩
    · obtain ⟨entry, hentry, rfl⟩ := List.mem_map.mp (hperm.mem_iff.mp hrow)
      have hbest := (hcomplete entry.1).1 _ (hscore hentry)
      have hset : {y | Found (net run run.maxHops) entry.1 y} = {x | ∃ path,
          FundPath run.db run.seedAddress run.maxHops path entry.1 ∧ x = pathScore run path} :=
        Set.ext fun y => found_iff
      rw [hset] at hbest
      exact hbest

end

noncomputable def realFunctions : Functions ℝ where
  sqrt := Real.sqrt
  halfPow x := ((1 / 2 : ℚ) : ℝ) ^ x

/-- The seed pays an exchange directly and by way of another wallet. -/
noncomputable def sampleRun : Run ℝ where
  db :=
    { relationships :=
        [⟨"s", "a", "TRX", "x1", 1, 0, 5, "native_transfer", by decide, by decide, by decide⟩,
          ⟨"a", "e", "TRX", "x2", 2, 0, 5, "native_transfer", by decide, by decide, by decide⟩,
          ⟨"s", "e", "TRX", "x3", 3, 0, 5, "native_transfer", by decide, by decide, by decide⟩]
      exchangeWallets := ["e"]
      completeBlocks := [1, 2, 3] }
  functions := realFunctions
  arrange _ := Arrangement.asGiven _
  seedAddress := "s"
  maxHops := 4
  nowUnixMs := 0
  propagationRunId := "run"

theorem sample_exposure_is_best : ∃ r, propagateExposure sampleRun = some r ∧ ∀ rows, r = .ok rows →
    (rows.map AddressExposureRow.exposedAddress).Nodup ∧
    (∀ address, (∃ row ∈ rows, row.exposedAddress = address) ↔
      ∃ path, FundPath sampleRun.db "s" 4 path address) ∧
    ∀ row ∈ rows, IsGreatest {x | ∃ path, FundPath sampleRun.db "s" 4 path
      row.exposedAddress ∧ x = pathScore sampleRun path} row.exposureScore :=
  exposure_is_best sampleRun (by decide)

end AmlReal.Tron.BestExposure
