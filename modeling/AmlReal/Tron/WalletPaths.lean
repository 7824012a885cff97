import AmlReal.Foundations.SimplePaths
import AmlReal.Tron.FlowGraph

/-! # The paths between two wallets

The search is one over the tree of simple paths. Three cut-offs can leave part of
the tree out, and each of them sets `truncated`. -/

namespace AmlReal.Tron.WalletPaths
open AmlReal.Foundations AmlReal.Foundations.LimitBy AmlReal.Foundations.TreeSearch
open AmlReal.Foundations.SimplePaths AmlReal.Tron.FlowGraph

/-- A stored relationship that leads from `a` to `b` in the requested direction. -/
def Hop (db : Relationships) (direction : PathSearchDirection) (edge : FlowEdge) (a b : String) : Prop :=
  edge ∈ db.rows ∧ match direction with
    | .outgoing => edge.fromAddress = a ∧ edge.toAddress = b
    | .incoming => edge.toAddress = a ∧ edge.fromAddress = b
    | .any => (edge.fromAddress = a ∧ edge.toAddress = b) ∨ (edge.toAddress = a ∧ edge.fromAddress = b)

def walkOf (p : FoundPath) : Walk String FlowEdge := ⟨p.nodeIds, p.edges⟩

def stateOf (s : PathSearchState) : State String FlowEdge := ⟨s.current, ⟨s.nodeIds, s.edges⟩⟩

/-- A path that the search is for: consecutive relationships, no address twice. -/
structure PathTo (db : Relationships) (direction : PathSearchDirection) (source target : String)
    (maxDepth : Nat) (p : FoundPath) : Prop where
  simple : Simple (Hop db direction) source (walkOf p)
  reaches : p.nodeIds.getLast? = some target
  short : p.edges.length ≤ maxDepth

section
variable (db : Relationships) (target : String) (limits : PathLimits) (direction : PathSearchDirection)

def pathSearch : SimplePaths.Search String FlowEdge where
  incident := pathRelationships db direction
  next current edge := nextPathAddress direction edge current
  target := target
  bound := limits.maxDepth

theorem hop_iff (a : String) (edge : FlowEdge) (b : String) :
    (edge ∈ pathRelationships db direction a ∧ nextPathAddress direction edge a = some b) ↔
      Hop db direction edge a b := by
  unfold pathRelationships Hop
  rw [List.mem_filter, and_assoc]
  refine and_congr_right fun _ => ?_
  cases direction with
  | outgoing => by_cases hfrom : edge.fromAddress = a <;> simp [selects, nextPathAddress, hfrom]
  | incoming => by_cases hto : edge.toAddress = a <;> simp [selects, nextPathAddress, hto]
  | any =>
    by_cases hfrom : edge.fromAddress = a
    · simp only [selects, nextPathAddress, hfrom, true_or, decide_true, if_true, Option.some.injEq,
        true_and]
      constructor
      · exact Or.inl
      · rintro (hto | ⟨hto, hself⟩)
        · exact hto
        · exact hto.trans hself
    · by_cases hto : edge.toAddress = a <;> simp [selects, nextPathAddress, hfrom, hto]

theorem pathSearch_over : (pathSearch db target limits direction).Over (Hop db direction) where
  hops := hop_iff db direction
  once _ := (List.Nodup.of_map _ db.ids).filter _

variable {db target limits direction}

/-- The tree lists the paths that the search is for. -/
theorem mem_pathSearch {source : String} (hends : source ≠ target) {p : FoundPath} :
    walkOf p ∈ (pathSearch db target limits direction).tree.all (State.start source) ↔
      PathTo db direction source target limits.maxDepth p := by
  rw [SimplePaths.Search.mem_tree (pathSearch_over db target limits direction) hends]
  exact ⟨fun ⟨hsimple, hreaches, hshort⟩ => ⟨hsimple, hreaches, hshort⟩,
    fun h => ⟨h.simple, h.reaches, h.short⟩⟩

theorem walkOf_injective : Function.Injective walkOf := by
  intro p q h
  obtain ⟨nodes, edges⟩ := p
  obtain ⟨hnodes, hedges⟩ := Walk.mk.inj h
  cases q
  simp_all

/-! ## The loop over the rows -/

/-- From `s` to `s'` the search has looked at the given rows of a state: it found `out` and queued
`kids`. Leaving any out sets the flag, and so does reaching the number of paths. -/
structure Visited (db : Relationships) (target : String) (limits : PathLimits)
    (direction : PathSearchDirection) (state : PathSearchState) (rows : List FlowEdge)
    (s s' : Searching) (out : List FoundPath) (kids : List PathSearchState) : Prop where
  foundPaths : s'.foundPaths = s.foundPaths ++ out
  queue : s'.queue = s.queue ++ kids
  count : s'.searchedNodeCount = s.searchedNodeCount
  part : (out.map walkOf).Sublist ((pathSearch db target limits direction).found (stateOf state) rows) ∧
    (kids.map stateOf).Sublist ((pathSearch db target limits direction).opened (stateOf state) rows)
  whole : s'.truncated = false → s.truncated = false ∧
    out.map walkOf = (pathSearch db target limits direction).found (stateOf state) rows ∧
    kids.map stateOf = (pathSearch db target limits direction).opened (stateOf state) rows
  bounded : s.foundPaths.length < limits.maxPaths → s'.foundPaths.length ≤ limits.maxPaths ∧
    (limits.maxPaths ≤ s'.foundPaths.length → s'.truncated = true)

/-- One row and then the rest of them. -/
theorem Visited.cons {state : PathSearchState} {edge : FlowEdge} {rest : List FlowEdge}
    {s mid s' : Searching} {out rest_out : List FoundPath} {kids rest_kids : List PathSearchState}
    (h : Visited db target limits direction state rest mid s' rest_out rest_kids)
    (hfound : mid.foundPaths = s.foundPaths ++ out) (hqueue : mid.queue = s.queue ++ kids)
    (hcount : mid.searchedNodeCount = s.searchedNodeCount) (hflag : mid.truncated = s.truncated)
    (hout : out.map walkOf = (pathSearch db target limits direction).found (stateOf state) [edge])
    (hkids : kids.map stateOf = (pathSearch db target limits direction).opened (stateOf state) [edge])
    (hroom : s.foundPaths.length < limits.maxPaths → mid.foundPaths.length < limits.maxPaths) :
    Visited db target limits direction state (edge :: rest) s s' (out ++ rest_out)
      (kids ++ rest_kids) := by
  refine ⟨?_, ?_, h.count.trans hcount, ⟨?_, ?_⟩, fun hf => ?_, fun hlt => h.bounded (hroom hlt)⟩
  · rw [h.foundPaths, hfound, List.append_assoc]
  · rw [h.queue, hqueue, List.append_assoc]
  · rw [List.map_append, SimplePaths.Search.found_cons, hout]
    exact (List.Sublist.refl _).append h.part.1
  · rw [List.map_append, SimplePaths.Search.opened_cons, hkids]
    exact (List.Sublist.refl _).append h.part.2
  · obtain ⟨hmid, hfoundAll, hopenedAll⟩ := h.whole hf
    refine ⟨hflag ▸ hmid, ?_, ?_⟩
    · rw [List.map_append, SimplePaths.Search.found_cons, hout, hfoundAll]
    · rw [List.map_append, SimplePaths.Search.opened_cons, hkids, hopenedAll]

variable (db target limits direction) in
theorem visit_visited (state : PathSearchState) (rows : List FlowEdge) (s : Searching) :
    ∃ out kids, Visited db target limits direction state rows s
      (visit target limits direction state rows s) out kids := by
  induction rows generalizing s with
  | nil =>
    exact ⟨[], [], (List.append_nil _).symm, (List.append_nil _).symm, rfl,
      ⟨List.Sublist.refl _, List.Sublist.refl _⟩, fun hf => ⟨hf, rfl, rfl⟩,
      fun hlt => ⟨Nat.le_of_lt hlt, fun hle => absurd hlt (Nat.not_lt_of_le hle)⟩⟩
  | cons edge rest ih =>
    have hskip : (pathSearch db target limits direction).follow (stateOf state) edge = none →
        visit target limits direction state (edge :: rest) s =
          visit target limits direction state rest s →
        ∃ out kids, Visited db target limits direction state (edge :: rest) s
          (visit target limits direction state (edge :: rest) s) out kids := by
      intro hnone hstep
      obtain ⟨hfound, hopened⟩ := SimplePaths.Search.one_none _ hnone
      obtain ⟨out, kids, h⟩ := ih s
      rw [hstep]
      exact ⟨[] ++ out, [] ++ kids, h.cons (List.append_nil _).symm (List.append_nil _).symm rfl rfl
        hfound.symm hopened.symm id⟩
    cases hnext : nextPathAddress direction edge state.current with
    | none =>
      exact hskip (SimplePaths.Search.follow_none _ hnext) (by simp only [visit, hnext])
    | some next =>
      by_cases hseen : next ∈ state.nodeIds
      · exact hskip (SimplePaths.Search.follow_seen _ hnext hseen)
          (by simp only [visit, hnext, if_pos hseen])
      · have hfollow := SimplePaths.Search.follow_new (pathSearch db target limits direction)
          (p := stateOf state) (e := edge) hnext hseen
        by_cases htarget : next = target
        · obtain ⟨hfound, hopened⟩ := SimplePaths.Search.one_target _ hfollow htarget
          by_cases hfull : limits.maxPaths ≤
              (s.foundPaths ++ [FoundPath.mk (state.nodeIds ++ [next]) (state.edges ++ [edge])]).length
          · -- the number of paths is reached and the other rows are left out
            have hstep : visit target limits direction state (edge :: rest) s =
                { s with
                  foundPaths := s.foundPaths ++ [⟨state.nodeIds ++ [next], state.edges ++ [edge]⟩]
                  truncated := true } := by
              simp only [visit, hnext, if_neg hseen, if_pos htarget, if_pos hfull]
            rw [hstep]
            refine ⟨_, [], rfl, (List.append_nil _).symm, rfl, ⟨?_, List.nil_sublist _⟩,
              fun hf => (by cases hf), fun hlt => ⟨?_, fun _ => rfl⟩⟩
            · rw [SimplePaths.Search.found_cons, hfound]
              exact List.sublist_append_left _ _
            · rw [List.length_append, List.length_singleton]
              exact hlt
          · have hstep : visit target limits direction state (edge :: rest) s =
                visit target limits direction state rest { s with
                  foundPaths := s.foundPaths ++ [⟨state.nodeIds ++ [next], state.edges ++ [edge]⟩] } := by
              simp only [visit, hnext, if_neg hseen, if_pos htarget, if_neg hfull]
            obtain ⟨out, kids, h⟩ := ih { s with
              foundPaths := s.foundPaths ++ [⟨state.nodeIds ++ [next], state.edges ++ [edge]⟩] }
            rw [hstep]
            exact ⟨_, [] ++ kids, h.cons rfl (List.append_nil _).symm rfl rfl hfound.symm hopened.symm
              fun _ => Nat.lt_of_not_le hfull⟩
        · obtain ⟨hfound, hopened⟩ := SimplePaths.Search.one_onward _ hfollow htarget
          have hstep : visit target limits direction state (edge :: rest) s =
              visit target limits direction state rest { s with
                queue := s.queue ++ [⟨next, state.nodeIds ++ [next], state.edges ++ [edge]⟩] } := by
            simp only [visit, hnext, if_neg hseen, if_neg htarget]
          obtain ⟨out, kids, h⟩ := ih { s with
            queue := s.queue ++ [⟨next, state.nodeIds ++ [next], state.edges ++ [edge]⟩] }
          rw [hstep]
          exact ⟨[] ++ out, _, h.cons (List.append_nil _).symm rfl rfl rfl hfound.symm hopened.symm id⟩

/-! ## The whole search -/

theorem loaded_subperm (arrange : Nat → Arrangement FlowEdge) (query : Nat) (address : String) :
    (loadPathRelationshipsForAddress db arrange limits direction query address).Subperm
      (pathRelationships db direction address) := by
  have hperm := (byBlock_perm ((arrange query).order (pathRelationships db direction address))).trans
    ((arrange query).perm _)
  exact (List.take_sublist _ _).subperm.trans hperm.subperm

/-- Rows that do not fill the limit are all there are. -/
theorem loaded_perm {arrange : Nat → Arrangement FlowEdge} {query : Nat} {address : String}
    (h : ¬ limits.perAddressLimit ≤
      (loadPathRelationshipsForAddress db arrange limits direction query address).length) :
    (loadPathRelationshipsForAddress db arrange limits direction query address).Perm
      (pathRelationships db direction address) := by
  have hperm := (byBlock_perm ((arrange query).order (pathRelationships db direction address))).trans
    ((arrange query).perm _)
  unfold loadPathRelationshipsForAddress at h ⊢
  rw [List.length_take] at h
  rwa [List.take_of_length_le (by omega)]

/-- The search so far: what it found and what it still has to look at. -/
structure Searched (db : Relationships) (target : String) (limits : PathLimits)
    (direction : PathSearchDirection) (source : String) (s : Searching) : Prop where
  room : s.foundPaths.length < limits.maxPaths
  tracks : Tracks (pathSearch db target limits direction).tree [State.start source]
    (s.foundPaths.map walkOf) (s.queue.map stateOf) s.truncated
  leveled : Leveled (fun p : State String FlowEdge => p.walk.edges.length)
    (fun w : Walk String FlowEdge => w.edges.length) (s.foundPaths.map walkOf) (s.queue.map stateOf)

/-- What a search ends with. -/
structure Finished (db : Relationships) (target : String) (limits : PathLimits)
    (direction : PathSearchDirection) (source : String) (s : Searching) : Prop where
  bounded : s.foundPaths.length ≤ limits.maxPaths
  sorted : s.foundPaths.Pairwise fun p q => p.edges.length ≤ q.edges.length
  sound : (s.foundPaths.map walkOf).Subperm
    ((pathSearch db target limits direction).tree.all (State.start source))
  complete : s.truncated = false → (s.foundPaths.map walkOf).Perm
    ((pathSearch db target limits direction).tree.all (State.start source))

variable {source : String} {s : Searching} {state : PathSearchState} {queue : List PathSearchState}

theorem Searched.start : Searched db target limits direction source (Searching.start source) :=
  ⟨limits.paths.1, Tracks.start _, Leveled.start _⟩

/-- A state that is deep enough has nothing below it. -/
theorem Searched.skip (h : Searched db target limits direction source s)
    (hqueue : s.queue = state :: queue) (hdeep : limits.maxDepth ≤ state.edges.length) :
    Searched db target limits direction source { s with queue := queue } := by
  obtain ⟨hroom, htracks, hleveled⟩ := h
  rw [hqueue, List.map_cons] at htracks hleveled
  have hshort : ¬ (stateOf state).walk.edges.length < (pathSearch db target limits direction).bound :=
    Nat.not_lt_of_le hdeep
  have hout : (pathSearch db target limits direction).tree.out (stateOf state) = [] := if_neg hshort
  have hkids : (pathSearch db target limits direction).tree.kids (stateOf state) = [] := if_neg hshort
  have hexpanded : Tracks (pathSearch db target limits direction).tree [State.start source]
      (s.foundPaths.map walkOf ++ []) (queue.map stateOf ++ []) s.truncated :=
    htracks.expand List.nil_subperm List.nil_subperm fun hf => ⟨hf, by rw [hout], by rw [hkids]⟩
  rw [List.append_nil, List.append_nil] at hexpanded
  exact ⟨hroom, hexpanded, hleveled.skip⟩

/-- Paths are listed with shorter ones first. -/
theorem shorter_first {paths : List FoundPath} {pending : List (State String FlowEdge)}
    (h : Leveled (fun p : State String FlowEdge => p.walk.edges.length)
      (fun w : Walk String FlowEdge => w.edges.length) (paths.map walkOf) pending) :
    paths.Pairwise fun p q => p.edges.length ≤ q.edges.length :=
  (List.pairwise_map (R := fun p q : Walk String FlowEdge => p.edges.length ≤ q.edges.length)).mp h.sorted

/-- A look at some rows of the state in front; without the flag they are all its rows. -/
theorem Searched.look (h : Searched db target limits direction source s)
    (hqueue : s.queue = state :: queue) (hshort : state.edges.length < limits.maxDepth)
    {rows : List FlowEdge} (hrows : rows.Subperm (pathRelationships db direction state.current))
    {flag : Bool} (hflag : flag = false →
      s.truncated = false ∧ rows.Perm (pathRelationships db direction state.current))
    (count : Nat) {s' : Searching}
    (hvisit : visit target limits direction state rows ⟨queue, s.foundPaths, count, flag⟩ = s') :
    (limits.maxPaths ≤ s'.foundPaths.length → Finished db target limits direction source s') ∧
      (¬ limits.maxPaths ≤ s'.foundPaths.length → Searched db target limits direction source s') ∧
      s'.searchedNodeCount = count ∧ s'.queue.length ≤ queue.length + rows.length := by
  obtain ⟨hroom, htracks, hleveled⟩ := h
  rw [hqueue, List.map_cons] at htracks hleveled
  obtain ⟨out, kids, hvisited⟩ := visit_visited db target limits direction state rows
    ⟨queue, s.foundPaths, count, flag⟩
  rw [hvisit] at hvisited
  obtain ⟨hfound, hkids, hcount, ⟨hpart, hopened⟩, hwhole, hbounded⟩ := hvisited
  obtain ⟨hle, hfull⟩ := hbounded hroom
  have hlt : (stateOf state).walk.edges.length < (pathSearch db target limits direction).bound := hshort
  have hout : (pathSearch db target limits direction).tree.out (stateOf state) =
      (pathSearch db target limits direction).found (stateOf state)
        (pathRelationships db direction state.current) := if_pos hlt
  have hnext : (pathSearch db target limits direction).tree.kids (stateOf state) =
      (pathSearch db target limits direction).opened (stateOf state)
        (pathRelationships db direction state.current) := if_pos hlt
  obtain ⟨hsubFound, hsubOpened⟩ :=
    SimplePaths.Search.part_subperm (pathSearch db target limits direction) (stateOf state) hrows
  have htracks' : Tracks (pathSearch db target limits direction).tree [State.start source]
      (s'.foundPaths.map walkOf) (s'.queue.map stateOf) s'.truncated := by
    rw [hfound, hkids, List.map_append, List.map_append]
    refine htracks.expand (hout ▸ hpart.subperm.trans hsubFound)
      (hnext ▸ hopened.subperm.trans hsubOpened) fun hf => ?_
    obtain ⟨hflagged, hallFound, hallOpened⟩ := hwhole hf
    obtain ⟨htruncated, hperm⟩ := hflag hflagged
    rw [hout, hnext, hallFound, hallOpened]
    exact ⟨htruncated, SimplePaths.Search.found_perm _ _ hperm, SimplePaths.Search.opened_perm _ _ hperm⟩
  have hleveled' : Leveled (fun p : State String FlowEdge => p.walk.edges.length)
      (fun w : Walk String FlowEdge => w.edges.length) (s'.foundPaths.map walkOf)
      (s'.queue.map stateOf) := by
    rw [hfound, hkids, List.map_append, List.map_append]
    exact hleveled.expand (fun w hw => SimplePaths.Search.found_length _ (hpart.subset hw))
      fun k hk => SimplePaths.Search.opened_length _ (hopened.subset hk)
  refine ⟨fun hge => ⟨hle, shorter_first hleveled', ?_, fun hf => ?_⟩,
    fun hge => ⟨Nat.lt_of_not_le hge, htracks', hleveled'⟩, hcount, ?_⟩
  · simpa using htracks'.results_subperm
  · rw [hfull hge] at hf
    cases hf
  · show s'.queue.length ≤ _
    rw [hkids, List.length_append]
    have hlength := hopened.length_le
    rw [List.length_map] at hlength
    have hopen := SimplePaths.Search.opened_length_le (pathSearch db target limits direction)
      (stateOf state) rows
    exact Nat.add_le_add_left (hlength.trans hopen) _

theorem Searched.finished (h : Searched db target limits direction source s) (hqueue : s.queue = []) :
    Finished db target limits direction source s := by
  obtain ⟨hroom, htracks, hleveled⟩ := h
  rw [hqueue, List.map_nil] at htracks
  refine ⟨Nat.le_of_lt hroom, shorter_first hleveled, ?_, fun hf => ?_⟩
  · simpa using htracks.results_subperm
  · rw [hf] at htracks
    simpa using htracks.results_perm

/-- A cut-off leaves paths of the tree, with the flag set. -/
theorem Searched.cut (h : Searched db target limits direction source s) :
    Finished db target limits direction source { s with queue := queue, truncated := true } :=
  ⟨Nat.le_of_lt h.room, shorter_first h.leveled, by simpa using h.tracks.results_subperm,
    fun hf => by cases hf⟩

variable (arrange : Nat → Arrangement FlowEdge)

/-- The rounds that a state of the search may still take. -/
def remaining (limits : PathLimits) (s : Searching) : Nat :=
  (maxExpandedNodes - s.searchedNodeCount) * (limits.perAddressLimit + 1) + s.queue.length

theorem search_finished (fuel : Nat) (h : Searched db target limits direction source s)
    (hfuel : remaining limits s < fuel) : ∃ s', search db arrange target limits direction fuel s = some s' ∧
      Finished db target limits direction source s' := by
  induction fuel generalizing s with
  | zero => omega
  | succ fuel ih =>
    unfold search
    split
    · rename_i hqueue
      exact ⟨s, rfl, h.finished hqueue⟩
    · rename_i state queue hqueue
      have hlength : s.queue.length = queue.length + 1 := by rw [hqueue, List.length_cons]
      by_cases hdeep : limits.maxDepth ≤ state.edges.length
      · rw [if_pos hdeep]
        refine ih (h.skip hqueue hdeep) ?_
        unfold remaining at hfuel ⊢
        show (maxExpandedNodes - s.searchedNodeCount) * _ + queue.length < fuel
        omega
      · rw [if_neg hdeep]
        by_cases hexpanded : maxExpandedNodes ≤ s.searchedNodeCount
        · exact ⟨_, if_pos hexpanded, h.cut⟩
        · simp only [if_neg hexpanded]
          generalize hrows : loadPathRelationshipsForAddress db arrange limits direction
            s.searchedNodeCount state.current = rows
          have hsub : rows.Subperm (pathRelationships db direction state.current) :=
            hrows ▸ loaded_subperm arrange _ _
          have hcut : rows.length ≤ limits.perAddressLimit := by
            rw [← hrows, loadPathRelationshipsForAddress, List.length_take]
            exact Nat.min_le_left _ _
          generalize hflagged : (if limits.perAddressLimit ≤ rows.length then _ else _) = before
          obtain ⟨flag, hbefore, hflag⟩ : ∃ flag, before = ⟨queue, s.foundPaths,
              s.searchedNodeCount + 1, flag⟩ ∧ (flag = false → s.truncated = false ∧
                rows.Perm (pathRelationships db direction state.current)) := by
            by_cases hfull : limits.perAddressLimit ≤ rows.length
            · rw [if_pos hfull] at hflagged
              exact ⟨true, hflagged.symm, fun hf => by cases hf⟩
            · rw [if_neg hfull] at hflagged
              refine ⟨s.truncated, hflagged.symm, fun hf => ⟨hf, ?_⟩⟩
              rw [← hrows] at hfull ⊢
              exact loaded_perm hfull
          subst hbefore
          generalize hvisit : visit target limits direction state rows _ = s'
          obtain ⟨hfinished, hsearched, hcount, hqueue'⟩ :=
            h.look hqueue (Nat.lt_of_not_le hdeep) hsub hflag _ hvisit
          by_cases hfull : limits.maxPaths ≤ s'.foundPaths.length
          · exact ⟨s', if_pos hfull, hfinished hfull⟩
          · rw [if_neg hfull]
            refine ih (hsearched hfull) ?_
            -- an expanded node takes away more rounds than its rows add states
            obtain ⟨left, hleft⟩ : ∃ left, maxExpandedNodes - s.searchedNodeCount = left + 1 :=
              ⟨maxExpandedNodes - s.searchedNodeCount - 1, by omega⟩
            have hleft' : maxExpandedNodes - s'.searchedNodeCount = left := by omega
            unfold remaining at hfuel ⊢
            rw [hleft, Nat.add_mul, Nat.one_mul] at hfuel
            rw [hleft']
            omega

/-- The path search, for all relationships, directions and limits and whatever order the rows come
in: it ends; it lists paths of the kind that was asked for, none twice, no more than the limit and
shorter ones first; and unless it says that it was truncated, it lists all of them. -/
theorem find_wallet_paths_exact (db : Relationships) (arrange : Nat → Arrangement FlowEdge)
    (source target : String) (limits : PathLimits) (direction : PathSearchDirection)
    (hends : source ≠ target) :
    ∃ r, findWalletPaths db arrange target limits direction source = some r ∧
      (∀ p ∈ r.paths, PathTo db direction source target limits.maxDepth p) ∧ r.paths.Nodup ∧
      r.paths.length ≤ limits.maxPaths ∧
      (r.paths.Pairwise fun p q => p.edges.length ≤ q.edges.length) ∧
      (r.truncated = false →
        ∀ p, p ∈ r.paths ↔ PathTo db direction source target limits.maxDepth p) := by
  have hstart : Searched db target limits direction source (Searching.start source) := .start
  obtain ⟨s, hs, hfinished⟩ := search_finished arrange (rounds limits) hstart (by
    show (maxExpandedNodes - 0) * (limits.perAddressLimit + 1) + 1 < rounds limits
    unfold rounds
    rw [Nat.sub_zero]
    omega)
  have hmem : ∀ p ∈ s.foundPaths, PathTo db direction source target limits.maxDepth p := fun p hp =>
    (mem_pathSearch hends).mp (hfinished.sound.subset (List.mem_map_of_mem hp))
  have hnodup : (s.foundPaths.map walkOf).Nodup := by
    have htree := (SimplePaths.Search.tree_traced (pathSearch_over db target limits direction)).nodup
      (State.start source)
    obtain ⟨zs, hzs, hsublist⟩ := hfinished.sound
    exact hzs.nodup_iff.mp (htree.sublist hsublist)
  refine ⟨⟨s.foundPaths, s.searchedNodeCount, s.truncated⟩, ?_, hmem, List.Nodup.of_map _ hnodup,
    hfinished.bounded, hfinished.sorted, fun hf p => ⟨hmem p, fun hp => ?_⟩⟩
  · rw [findWalletPaths, hs]
    rfl
  · have hwalk := (hfinished.complete hf).mem_iff.mpr ((mem_pathSearch hends).mpr hp)
    exact (List.mem_map_of_injective walkOf_injective).mp hwalk

end

def sampleRelationships : Relationships where
  rows := [⟨"r1", "a", "b", "TRX", "x1", 1⟩, ⟨"r2", "b", "c", "TRX", "x2", 2⟩, ⟨"r3", "c", "c", "TRX", "x3", 2⟩]
  ids := by decide

theorem sample_wallet_paths_exact : ∃ r, findWalletPaths sampleRelationships (fun _ => Arrangement.asGiven _) "c"
      (PathLimits.ofRequest none none none) .any "a" = some r ∧
      (∀ p ∈ r.paths, PathTo sampleRelationships .any "a" "c" 10 p) ∧ r.paths.Nodup ∧
      r.paths.length ≤ 20 ∧ (r.paths.Pairwise fun p q => p.edges.length ≤ q.edges.length) ∧
      (r.truncated = false → ∀ p, p ∈ r.paths ↔ PathTo sampleRelationships .any "a" "c" 10 p) :=
  find_wallet_paths_exact sampleRelationships _ "a" "c" (PathLimits.ofRequest none none none) .any
    (by decide)

end AmlReal.Tron.WalletPaths
