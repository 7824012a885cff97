import AmlReal.Bitcoin.PathSearch

/-! # What a path between addresses shows

The search ends, its notes lead back to the source, and the path that is shown is
one of transactions: each hop is an input and an output of one transaction, both
borne out by canonical facts, later than the hop before. -/

namespace AmlReal.Bitcoin.PathConnectivity
open AmlReal.Foundations AmlReal.Foundations.Checks AmlReal.Foundations.SimplePaths
open AmlReal.Foundations.ParentChains
open AmlReal.Tron.AddressSpellings (Sha256)
open AmlReal.Warehouse.Relationships AmlReal.Warehouse.RelationshipReader AmlReal.Warehouse.Values
open AmlReal.Bitcoin.PathSearch

variable {sha : Sha256} {facts : Facts} {source target : String} {hops cap : Nat} {near : Graph sha} {visit : Visit}
  {input output : Edge sha}

variable (facts) in
/-- An address spends an input of a transaction, and another address receives an output of it. -/
structure Crosses (legs : Edge sha × Edge sha) (a b : String) : Prop where
  rows : legs.1.row ∈ facts.relationships ∧ legs.2.row ∈ facts.relationships
  input : IsInput sha legs.1.row ∧ InputBehind sha facts legs.1.row
  output : IsOutput sha legs.2.row ∧ OutputBehind sha facts legs.2.row
  transaction : legs.1.row.blockHash = legs.2.row.blockHash ∧ legs.1.row.txHash = legs.2.row.txHash
  spends : legs.1.row.fromSubjectId = a
  creates : legs.2.row.toSubjectId = b

/-! ## The neighbourhood of an address -/

theorem walletGraph_ok {address : String} {limit : Nat} (h : walletGraph sha facts address limit = .ok near) :
    near.Closed ∧ near.networkId = .bitcoin ∧
      ∀ e ∈ near.edges, e.row ∈ facts.relationships ∧ BornOut sha facts e.row := by
  obtain ⟨subject, _, h⟩ := bind_ok h
  obtain ⟨n, hread, h⟩ := bind_ok h
  cases h
  obtain ⟨g, edges, truncated, hshowing, hwhole, rfl⟩ := readNeighborhood_showing hread
  have hn := showing_neighbouring hshowing hwhole
  exact ⟨hn.closed, hn.networkId, fun e he => ⟨(hn.related e he).1, hn.bornOut rfl e he⟩⟩

theorem mem_spending (h : input ∈ spending near visit) :
    input ∈ near.edges ∧ input.row.fromSubjectId = visit.current ∧ input.row.transferType = "utxo_input" ∧
      ∀ p ∈ visit.after, before p (position input.row) := by
  have hfilter := (SortedMap.mem_of_mem_inserts h).resolve_right (List.not_mem_nil)
  obtain ⟨hmem, hgood⟩ := List.mem_filter.mp hfilter
  exact ⟨hmem, of_decide_eq_true hgood⟩

/-- An output of the transaction that an input goes into makes a hop with it. -/
theorem crosses_of_created (hnear : ∀ e ∈ near.edges, e.row ∈ facts.relationships ∧ BornOut sha facts e.row)
    (hinput : input ∈ spending near visit) (houtput : output ∈ created near input.row.toSubjectId) :
    Crosses facts (input, output) visit.current output.row.toSubjectId := by
  obtain ⟨hin, hfrom, htype, _⟩ := mem_spending hinput
  obtain ⟨hout, hgood⟩ := List.mem_filter.mp houtput
  obtain ⟨htx, hkind⟩ := of_decide_eq_true hgood
  obtain ⟨hrow, hborn⟩ := hnear input hin
  obtain ⟨hrow', hborn'⟩ := hnear output hout
  have hleg : IsInput sha input.row ∧ InputBehind sha facts input.row :=
    hborn.resolve_right fun h => absurd (htype.symm.trans h.1.1) (by decide)
  have hleg' : IsOutput sha output.row ∧ OutputBehind sha facts output.row :=
    hborn'.resolve_left fun h => absurd (hkind.symm.trans h.1.1) (by decide)
  exact {
    rows := ⟨hrow, hrow'⟩
    input := hleg
    output := hleg'
    transaction := transactionSubjectId_inj hleg.1.2.1 (htx ▸ hleg'.1.2.1)
    spends := hfrom
    creates := rfl }

/-! ## The notes of the search -/

theorem before_trans {p q r : Nat × Nat} (h : before p q) (h' : before q r) : before p r := by
  unfold before at *
  omega

/-- The hops follow each other in time, the last of them at `after`. -/
structure Timed (after : Option (Nat × Nat)) (legs : List (Edge sha × Edge sha)) : Prop where
  later : legs.Pairwise fun l m => before (position l.1.row) (position m.1.row)
  last : ∀ l ∈ legs, ∃ p ∈ after, position l.1.row = p ∨ before (position l.1.row) p

theorem Timed.extend {after : Option (Nat × Nat)} {legs : List (Edge sha × Edge sha)} (h : Timed after legs)
    (hinput : ∀ p ∈ after, before p (position input.row)) :
    Timed (some (position input.row)) (legs ++ [(input, output)]) := by
  have hbefore : ∀ l ∈ legs, before (position l.1.row) (position input.row) := by
    intro l hl
    obtain ⟨p, hp, hle⟩ := h.last l hl
    rcases hle with heq | hlt
    · rw [heq]
      exact hinput p hp
    · exact before_trans hlt (hinput p hp)
  constructor
  · refine List.pairwise_append.mpr ⟨h.later, List.pairwise_singleton _ _, fun l hl m hm => ?_⟩
    obtain rfl := List.mem_singleton.mp hm
    exact hbefore l hl
  · intro l hl
    refine ⟨_, rfl, ?_⟩
    rcases List.mem_append.mp hl with hl | hl
    · exact Or.inr (hbefore l hl)
    · obtain rfl := List.mem_singleton.mp hl
      exact Or.inl rfl

variable (facts source hops) in
/-- The notes lead back from a visit along the hops that led to it. -/
structure Arrives (parent : List (String × String × Crossing)) (seen : List String) (v : Visit)
    (w : Walk String (Edge sha × Edge sha)) : Prop where
  leads : Leads crossing parent source v.current w
  simple : Simple (Crosses facts) source w
  seen : ∀ a ∈ w.vertices, a ∈ seen
  depth : w.edges.length = v.depth
  bound : v.depth ≤ hops
  timed : Timed v.after w.edges

variable (sha facts source hops) in
def Reached (parent : List (String × String × Crossing)) (seen : List String) (v : Visit) : Prop :=
  ∃ w : Walk String (Edge sha × Edge sha), Arrives facts source hops parent seen v w

variable {s s' : Searching sha}

theorem Reached.note {parent : List (String × String × Crossing)} {seen : List String} {v : Visit}
    (h : Reached sha facts source hops parent seen v) {b : String} (hb : b ∉ seen) (note : String × Crossing) :
    Reached sha facts source hops ((b, note) :: parent) (b :: seen) v := by
  obtain ⟨w, hw⟩ := h
  exact ⟨w, {
    leads := hw.leads.insert fun hin => hb (hw.seen b hin)
    simple := hw.simple
    seen := fun a ha => List.mem_cons_of_mem b (hw.seen a ha)
    depth := hw.depth
    bound := hw.bound
    timed := hw.timed }⟩

/-- A hop to a new address, noted. -/
theorem Reached.hop {parent : List (String × String × Crossing)} {seen : List String}
    (h : Reached sha facts source hops parent seen visit) (hdepth : visit.depth < hops)
    (hsource : source ∈ seen) (hnear : ∀ e ∈ near.edges, e.row ∈ facts.relationships ∧ BornOut sha facts e.row)
    (hinput : input ∈ spending near visit) (houtput : output ∈ created near input.row.toSubjectId)
    (hnew : output.row.toSubjectId ∉ seen) :
    Reached sha facts source hops
      ((output.row.toSubjectId, visit.current, crossing (input, output)) :: parent)
      (output.row.toSubjectId :: seen)
      ⟨output.row.toSubjectId, visit.depth + 1, some (position input.row)⟩ := by
  obtain ⟨w, hw⟩ := h
  have hout : output.row.toSubjectId ∉ w.vertices := fun hin => hnew (hw.seen _ hin)
  have hne : output.row.toSubjectId ≠ source := fun heq => hnew (heq ▸ hsource)
  refine ⟨w.extend (input, output) output.row.toSubjectId, {
    leads := Leads.step List.lookup_cons_self hne (hw.leads.insert hout)
    simple := (simple_extend hw.leads.last).mpr ⟨hw.simple, crosses_of_created hnear hinput houtput, hout⟩
    seen := fun a ha => ?_
    depth := by rw [Walk.extend, List.length_append, hw.depth]; rfl
    bound := hdepth
    timed := hw.timed.extend (mem_spending hinput).2.2.2 }⟩
  rcases List.mem_append.mp ha with ha | ha
  · exact List.mem_cons_of_mem _ (hw.seen a ha)
  · exact List.mem_singleton.mp ha ▸ List.mem_cons_self ..

/-! ## The rounds of the search -/

/-- What is left to do: the entries of the queue, and the addresses it may still take. -/
def remaining (cap : Nat) (s : Searching sha) : Nat := s.queue.length + (cap - s.seen.length)

variable (facts source hops cap) in
structure Explored (s : Searching sha) : Prop where
  graph : s.graph.Closed
  network : s.graph.networkId = .bitcoin
  nodeBound : s.graph.nodes.length ≤ 2000
  edgeBound : s.graph.edges.length ≤ 2000
  rows : ∀ e ∈ s.graph.edges, e.row ∈ facts.relationships
  root : source ∈ s.seen
  seenBound : s.seen.length ≤ max 1 cap
  reached : ∀ a ∈ s.seen, ∃ v : Visit, v.current = a ∧ Reached sha facts source hops s.parent s.seen v
  queue : ∀ v ∈ s.queue, Reached sha facts source hops s.parent s.seen v
  noted : ∀ a, (s.parent.lookup a).isSome → a ∈ s.seen ∧ a ≠ source
  notes : s.seen.length = s.parent.length + 1

variable (sha facts source hops cap) in
/-- A round goes on from the same notes, and does what it takes off the rest. -/
structure Advances (s s' : Searching sha) : Prop where
  explored : Explored facts source hops cap s'
  reached : ∀ v, Reached sha facts source hops s.parent s.seen v → Reached sha facts source hops s'.parent s'.seen v
  remaining : remaining cap s' = remaining cap s

theorem Advances.refl (h : Explored facts source hops cap s) : Advances sha facts source hops cap s s :=
  ⟨h, fun _ hv => hv, rfl⟩

theorem Advances.trans {s'' : Searching sha} (h : Advances sha facts source hops cap s s')
    (h' : Advances sha facts source hops cap s' s'') : Advances sha facts source hops cap s s'' :=
  ⟨h'.explored, fun v hv => h'.reached v (h.reached v hv), h'.remaining.trans h.remaining⟩

/-- The cap only marks the graph. -/
theorem Explored.mark (h : Explored facts source hops cap s) (truncated : Bool) :
    Explored facts source hops cap { s with graph := { s.graph with truncated := truncated } } :=
  { h with graph := h.graph.truncate truncated }

/-- An address that was not seen yet is noted and queued. -/
theorem Explored.discover (h : Explored facts source hops cap s)
    (hvisit : Reached sha facts source hops s.parent s.seen visit) (hdepth : visit.depth < hops)
    (hnear : ∀ e ∈ near.edges, e.row ∈ facts.relationships ∧ BornOut sha facts e.row)
    (hinput : input ∈ spending near visit) (houtput : output ∈ created near input.row.toSubjectId)
    (hnew : output.row.toSubjectId ∉ s.seen) (hcap : s.seen.length < cap) :
    Advances sha facts source hops cap s { s with
      seen := output.row.toSubjectId :: s.seen
      parent := (output.row.toSubjectId, visit.current, crossing (input, output)) :: s.parent
      queue := s.queue ++ [⟨output.row.toSubjectId, visit.depth + 1, some (position input.row)⟩] } := by
  have hhop := hvisit.hop hdepth h.root hnear hinput houtput hnew
  refine ⟨{ h with
    root := List.mem_cons_of_mem _ h.root
    seenBound := ?_
    reached := fun a ha => ?_
    queue := fun v hv => ?_
    noted := fun a ha => ?_
    notes := ?_ }, fun v hv => hv.note hnew _, ?_⟩
  · rw [List.length_cons]
    omega
  · rcases List.mem_cons.mp ha with rfl | ha
    · exact ⟨_, rfl, hhop⟩
    · obtain ⟨v, hv, hreached⟩ := h.reached a ha
      exact ⟨v, hv, hreached.note hnew _⟩
  · rcases List.mem_append.mp hv with hv | hv
    · exact (h.queue v hv).note hnew _
    · obtain rfl := List.mem_singleton.mp hv
      exact hhop
  · rw [List.lookup_cons] at ha
    split at ha
    · rename_i heq
      obtain rfl := eq_of_beq heq
      exact ⟨List.mem_cons_self .., fun hsource => hnew (hsource ▸ h.root)⟩
    · obtain ⟨hseen, hne⟩ := h.noted a ha
      exact ⟨List.mem_cons_of_mem _ hseen, hne⟩
  · rw [List.length_cons, List.length_cons, h.notes]
  · simp only [remaining, List.length_append, List.length_cons, List.length_nil]
    omega

theorem follow_advances (hdepth : visit.depth < hops)
    (hnear : ∀ e ∈ near.edges, e.row ∈ facts.relationships ∧ BornOut sha facts e.row)
    (hinput : input ∈ spending near visit) {outputs : List (Edge sha)}
    (houtputs : ∀ o ∈ outputs, o ∈ created near input.row.toSubjectId) (h : Explored facts source hops cap s)
    (hvisit : Reached sha facts source hops s.parent s.seen visit) :
    Advances sha facts source hops cap s (follow cap visit input outputs s) := by
  induction outputs generalizing s with
  | nil => exact Advances.refl h
  | cons output rest ih =>
    obtain ⟨houtput, hrest⟩ := List.forall_mem_cons.mp houtputs
    unfold follow
    split
    · exact ih hrest h hvisit
    · rename_i hnew
      have hnew : output.row.toSubjectId ∉ s.seen := fun hin => hnew (Or.inr hin)
      split
      · exact ⟨h.mark true, fun _ hv => hv, rfl⟩
      · rename_i hcap
        have hstep := h.discover hvisit hdepth hnear hinput houtput hnew (Nat.lt_of_not_le hcap)
        exact hstep.trans (ih hrest hstep.explored (hstep.reached visit hvisit))

theorem expand_advances (hdepth : visit.depth < hops)
    (hnear : ∀ e ∈ near.edges, e.row ∈ facts.relationships ∧ BornOut sha facts e.row)
    (h : Explored facts source hops cap s) (hvisit : Reached sha facts source hops s.parent s.seen visit) :
    Advances sha facts source hops cap s (expand cap visit near s) := by
  have hfold : ∀ {inputs : List (Edge sha)} {s : Searching sha}, (∀ i ∈ inputs, i ∈ spending near visit) →
      Explored facts source hops cap s → Reached sha facts source hops s.parent s.seen visit →
      Advances sha facts source hops cap s (inputs.foldl
        (fun s input => follow cap visit input (created near input.row.toSubjectId) s) s) := by
    intro inputs
    induction inputs with
    | nil => exact fun _ h _ => Advances.refl h
    | cons input rest ih =>
      intro s hinputs h hvisit
      obtain ⟨hinput, hrest⟩ := List.forall_mem_cons.mp hinputs
      have hstep := follow_advances hdepth hnear hinput (fun o ho => ho) h hvisit
      exact hstep.trans (ih hrest hstep.explored (hstep.reached visit hvisit))
  exact hfold (fun i hi => hi) h hvisit

theorem round_advances (h : Explored facts source hops cap s)
    (hvisit : Reached sha facts source hops s.parent s.seen visit)
    (hround : PathSearch.round sha facts hops cap visit s = .ok s') : Advances sha facts source hops cap s s' := by
  unfold PathSearch.round at hround
  split at hround
  · cases hround
    exact Advances.refl h
  · rename_i hdepth
    obtain ⟨near, hwallet, hround⟩ := bind_ok hround
    obtain ⟨graph, hmerge, hround⟩ := bind_ok hround
    cases hround
    obtain ⟨hclosed, _, hnear⟩ := walletGraph_ok hwallet
    have hexpand := expand_advances (Nat.lt_of_not_le hdepth) hnear h hvisit
    obtain ⟨hmerged, _⟩ := Graph.merge_extends hexpand.explored.graph hclosed hmerge
    refine ⟨{ hexpand.explored with
      graph := hmerged.closed
      network := hmerged.networkId.trans hexpand.explored.network
      nodeBound := ?_
      edgeBound := ?_
      rows := fun e he => ?_ }, hexpand.reached, hexpand.remaining⟩
    · exact hmerged.nodeBound.trans (max_le (Nat.le_refl _) hexpand.explored.nodeBound)
    · exact hmerged.edgeBound.trans (max_le (Nat.le_refl _) hexpand.explored.edgeBound)
    · exact (hmerged.added e he).elim (hexpand.explored.rows e) fun hin => (hnear e hin).1

/-- The rounds end, before the fuel does. -/
theorem search_explored (fuel : Nat) {found : Option (Searching sha)} (h : Explored facts source hops cap s)
    (hfuel : remaining cap s ≤ fuel) (hsearch : search sha facts target hops cap fuel s = .ok found) :
    ∃ s', found = some s' ∧ Explored facts source hops cap s' := by
  induction fuel generalizing s with
  | zero =>
    unfold search at hsearch
    have hqueue : s.queue = [] := List.length_eq_zero_iff.mp (by unfold remaining at hfuel; omega)
    rw [if_pos hqueue] at hsearch
    cases hsearch
    exact ⟨s, rfl, h⟩
  | succ fuel ih =>
    unfold search at hsearch
    split at hsearch
    · cases hsearch
      exact ⟨s, rfl, h⟩
    · rename_i visit queue hqueue
      obtain ⟨next, hround, hsearch⟩ := bind_ok hsearch
      have hpopped : Explored facts source hops cap { s with queue := queue } :=
        { h with queue := fun v hv => h.queue v (hqueue ▸ List.mem_cons_of_mem visit hv) }
      have hvisit := h.queue visit (hqueue ▸ List.mem_cons_self ..)
      have hstep := round_advances hpopped hvisit hround
      split at hsearch
      · cases hsearch
        exact ⟨next, rfl, hstep.explored⟩
      · refine ih hstep.explored ?_ hsearch
        rw [hstep.remaining]
        simp only [remaining, hqueue, List.length_cons] at hfuel ⊢
        omega

/-! ## Tracing back -/

/-- The addresses of a walk up to its last, each with the transaction that spends it. -/
def stops (w : Walk String (Edge sha × Edge sha)) : List String :=
  (w.vertices.zip (w.edges.map fun l => l.1.row.toSubjectId)).flatMap fun stop => [stop.1, stop.2]

theorem stops_extend {w : Walk String (Edge sha × Edge sha)} {a b : String} {legs : Edge sha × Edge sha}
    (hlast : w.vertices.getLast? = some a) (hlength : w.vertices.length = w.edges.length + 1) :
    stops (w.extend legs b) = stops w ++ [a, legs.1.row.toSubjectId] := by
  obtain ⟨vertices, edges⟩ := w
  obtain ⟨init, rfl⟩ := List.getLast?_eq_some_iff.mp hlast
  have hinit : init.length = (edges.map fun l => l.1.row.toSubjectId).length := by
    have hlength : init.length + 1 = edges.length + 1 := by simpa using hlength
    rw [List.length_map]
    omega
  have hwalk : (init ++ [a]).zip (edges.map fun l => l.1.row.toSubjectId) =
      init.zip (edges.map fun l => l.1.row.toSubjectId) := by
    conv_lhs => rw [← List.append_nil (edges.map fun l => l.1.row.toSubjectId)]
    rw [List.zip_append hinit, List.zip_nil_right, List.append_nil]
  simp only [stops, Walk.extend, List.map_append, List.append_assoc]
  rw [List.zip_append hinit, hwalk]
  simp

/-- The notes are followed to the source, hop by hop. -/
theorem traceBack_leads {parent : List (String × String × Crossing)} {a : String}
    {w : Walk String (Edge sha × Edge sha)} (h : Leads crossing parent source a w) {fuel : Nat}
    (hfuel : w.edges.length ≤ fuel) (path : Path) :
    traceBack parent source fuel a path = some ⟨w.vertices.dropLast ++ path.addresses, stops w ++ path.nodeIds,
      (w.edges.flatMap fun l => [l.1.key, l.2.key]) ++ path.edgeIds, path.hopCount⟩ := by
  induction h generalizing fuel path with
  | source =>
    unfold traceBack
    rw [if_pos rfl]
    rfl
  | step note hne rest ih =>
    rename_i a b e w
    have hlength : (w.extend e b).edges.length = w.edges.length + 1 := List.length_append
    obtain ⟨fuel, rfl⟩ : ∃ n, fuel = n + 1 := ⟨fuel - 1, by omega⟩
    have hvertices : w.vertices.dropLast ++ [a] = w.vertices := by
      obtain ⟨init, hinit⟩ := List.getLast?_eq_some_iff.mp rest.last
      rw [hinit, List.dropLast_concat]
    unfold traceBack
    rw [if_neg hne]
    simp only [note]
    rw [ih (by omega), stops_extend rest.last rest.length]
    have hdrop : (w.extend e b).vertices.dropLast = w.vertices := List.dropLast_concat
    rw [hdrop]
    simp only [Walk.extend, crossing, List.flatMap_append, List.append_assoc, List.cons_append, List.nil_append,
      List.flatMap_cons, List.flatMap_nil, List.append_nil]
    rw [List.append_cons w.vertices.dropLast, hvertices]

variable (facts source target hops) in
/-- A path of transactions, whose edges the graph shows. -/
structure Connected (graph : Graph sha) (legs : List (Edge sha × Edge sha)) (p : Path) : Prop where
  simple : Simple (Crosses facts) source ⟨p.addresses, legs⟩
  arrives : p.addresses.getLast? = some target
  later : legs.Pairwise fun l m => before (position l.1.row) (position m.1.row)
  edgeIds : p.edgeIds = legs.flatMap fun l => [l.1.key, l.2.key]
  nodeIds : p.nodeIds = stops ⟨p.addresses, legs⟩ ++ [target]
  hopCount : p.hopCount = legs.length ∧ 0 < legs.length ∧ legs.length ≤ hops
  evidence : ∀ id ∈ p.edgeIds, ∃ e ∈ graph.edges, e.key = id

/-- The notes of a finished search lead from the target to the source. -/
theorem Explored.connected (h : Explored facts source hops cap s) (htarget : (s.parent.lookup target).isSome) :
    ∃ p legs, traceBack s.parent source s.parent.length target ⟨[target], [target], [], 0⟩ = some p ∧
      ((∀ id ∈ p.edgeIds, ∃ e ∈ s.graph.edges, e.key = id) →
        Connected facts source target hops s.graph legs { p with hopCount := p.addresses.length - 1 }) := by
  obtain ⟨hseen, hne⟩ := h.noted target htarget
  obtain ⟨v, rfl, w, hw⟩ := h.reached target hseen
  have hlength := hw.leads.length
  have hfuel : w.edges.length ≤ s.parent.length := by
    have hsub := (hw.simple.simple.subperm fun a ha => hw.seen a ha).length_le
    rw [h.notes] at hsub
    omega
  have hvertices : w.vertices.dropLast ++ [v.current] = w.vertices := by
    obtain ⟨init, hinit⟩ := List.getLast?_eq_some_iff.mp hw.leads.last
    rw [hinit, List.dropLast_concat]
  refine ⟨_, w.edges, traceBack_leads hw.leads hfuel _, fun hevidence => ?_⟩
  simp only [hvertices, List.append_nil] at hevidence ⊢
  exact {
    simple := hw.simple
    arrives := hw.leads.last
    later := hw.timed.later
    edgeIds := rfl
    nodeIds := rfl
    hopCount := by
      refine ⟨by simp only [hlength, Nat.add_sub_cancel], List.length_pos_iff.mpr fun hnil => hne ?_,
        hw.depth ▸ hw.bound⟩
      have hstart := hw.simple.of_edges_nil hnil
      have hlast := hw.leads.last
      rw [hstart] at hlast
      exact (Option.some.inj hlast).symm
    evidence := hevidence }

variable (facts source target hops cap) in
/-- What a search returns. -/
structure Answered (r : PathResult sha) : Prop where
  closed : r.graph.Closed
  bounds : r.graph.nodes.length ≤ 2000 ∧ r.graph.edges.length ≤ 2000
  rows : ∀ e ∈ r.graph.edges, e.row ∈ facts.relationships
  searched : r.searchedAddresses ≤ max 1 cap
  one : r.paths.length ≤ 1
  paths : ∀ p ∈ r.paths, ∃ legs, Connected facts source target hops r.graph legs p

theorem shown_connected (h : Explored facts source hops cap s) :
    ∃ paths graph, shown source target s = some (paths, graph) ∧
      Answered facts source target hops cap ⟨graph, paths, s.seen.length, facts.revision⟩ := by
  have hnone : ∀ truncated, Answered facts source target hops cap
      ⟨{ s.graph with truncated := truncated }, [], s.seen.length, facts.revision⟩ := fun truncated => {
    closed := h.graph.truncate truncated
    bounds := ⟨h.nodeBound, h.edgeBound⟩
    rows := h.rows
    searched := h.seenBound
    one := Nat.zero_le 1
    paths := fun _ hp => by cases hp }
  unfold shown
  split
  · rename_i htarget
    obtain ⟨p, legs, htrace, hconnected⟩ := h.connected htarget
    rw [htrace, Option.bind_eq_bind, Option.bind_some]
    split
    · rename_i hevidence
      refine ⟨_, _, rfl, { hnone s.graph.truncated with one := Nat.le_refl 1, paths := fun q hq => ?_ }⟩
      obtain rfl := List.mem_singleton.mp hq
      exact ⟨legs, hconnected fun id hid => SortedMap.find_isSome.mp (hevidence id hid)⟩
    · exact ⟨_, _, rfl, hnone true⟩
  · exact ⟨_, _, rfl, hnone s.graph.truncated⟩

theorem start_explored (h : start sha source target = .ok s) :
    Explored facts source hops cap s ∧ remaining cap s ≤ cap + 1 := by
  obtain ⟨_, _, h⟩ := bind_ok h
  obtain ⟨first, hfirst, h⟩ := bind_ok h
  obtain ⟨_, _, h⟩ := bind_ok h
  obtain ⟨graph, hgraph, h⟩ := bind_ok h
  cases h
  have hclosed := Graph.node_adds (Graph.closed_new .bitcoin) hfirst
  have hgraph' := Graph.node_adds hclosed.closed hgraph
  have hone := Graph.node_counts (Graph.closed_new .bitcoin) hfirst
  have htwo := Graph.node_counts hclosed.closed hgraph
  have hempty : graph.edges = [] := htwo.2.trans hone.2
  have hreached : Reached sha facts source hops [] [source] ⟨source, 0, none⟩ := ⟨Walk.start source, {
    leads := Leads.source
    simple := simple_start source
    seen := fun _ ha => ha
    depth := rfl
    bound := Nat.zero_le hops
    timed := ⟨List.Pairwise.nil, fun _ h => by cases h⟩ }⟩
  refine ⟨{
    graph := hgraph'.closed
    network := hgraph'.networkId.trans hclosed.networkId
    nodeBound := htwo.1.trans (Nat.le_trans (Nat.succ_le_succ hone.1) (show 0 + 1 + 1 ≤ 2000 by decide))
    edgeBound := by rw [hempty]; exact Nat.zero_le 2000
    rows := fun e he => by rw [hempty] at he; cases he
    root := List.mem_singleton.mpr rfl
    seenBound := Nat.le_max_left 1 cap
    reached := fun a ha => ⟨⟨source, 0, none⟩, (List.mem_singleton.mp ha).symm, hreached⟩
    queue := fun v hv => List.mem_singleton.mp hv ▸ hreached
    noted := fun _ h => by cases h
    notes := rfl }, ?_⟩
  simp only [remaining, List.length_singleton]
  omega

/-- The search between two addresses ends without a missing note, and each path it
shows is one of transactions from the one to the other. -/
theorem paths_connected {found : Option (PathResult sha)}
    (h : findPaths sha facts source target hops cap = .ok found) :
    ∃ r, found = some r ∧ Answered facts source target hops cap r := by
  obtain ⟨s, hstart, h⟩ := bind_ok h
  obtain ⟨last, hsearch, h⟩ := bind_ok h
  obtain ⟨hexplored, hfuel⟩ := start_explored hstart
  obtain ⟨s', rfl, hlast⟩ := search_explored (cap + 1) hexplored hfuel hsearch
  obtain ⟨paths, graph, hshown, hanswered⟩ := shown_connected hlast
  cases h
  refine ⟨_, ?_, hanswered⟩
  rw [Option.bind_eq_bind, Option.bind_some, hshown]
  rfl

/-! ## A hop -/

/-- The two ends alone. -/
def sampleEnds : Graph sampleSha := ⟨.bitcoin, [samplePayer, samplePayee], [], false⟩

/-- What is known once the payer was visited, over a graph. -/
def sampleVisited (graph : Graph sampleSha) : Searching sampleSha :=
  ⟨[⟨payee, 1, some (5, 1)⟩], [payee, payer], [(payee, payer, crossing (inputEdge, outputEdge))], graph⟩

/-- What is computed of the sample. -/
structure SampleFollowed : Prop where
  source : Subject.address sampleSha .bitcoin payer = .ok samplePayer
  target : Subject.address sampleSha .bitcoin payee = .ok samplePayee
  ends : SortedMap.insert Subject.subjectId samplePayee (SortedMap.insert Subject.subjectId samplePayer []) =
    sampleEnds.nodes
  spending : spending sampleGraph ⟨payer, 0, none⟩ = [inputEdge]
  created : created sampleGraph inputEdge.row.toSubjectId = [outputEdge]
  fresh : ¬ (script payee ∨ payee ∈ [payer])
  nodes : sampleGraph.nodes.foldl (Graph.mergeNode 2000) sampleEnds = ⟨.bitcoin, sampleGraph.nodes, [], false⟩
  between : ∀ e ∈ sampleGraph.edges,
    sampleGraph.hasNode e.row.fromSubjectId ∧ sampleGraph.hasNode e.row.toSubjectId
  shown : (shown payer payee (sampleVisited sampleGraph)).map (fun found => found.1.map Path.hopCount) = some [1]

theorem sample_followed : SampleFollowed where
  source := by decide +kernel
  target := by decide +kernel
  ends := by decide +kernel
  spending := by decide +kernel
  created := by decide +kernel
  fresh := by decide +kernel
  nodes := by decide +kernel
  between := by decide +kernel
  shown := by decide +kernel

theorem sample_near : walletGraph sampleSha sampleFacts payer 20 = .ok sampleGraph := by
  unfold walletGraph
  rw [sample_followed.source, ok_bind, sample_read, ok_bind]
  rfl

theorem sample_start : start sampleSha payer payee = .ok ⟨[⟨payer, 0, none⟩], [payer], [], sampleEnds⟩ := by
  unfold start
  rw [sample_followed.source, ok_bind, Graph.node_of rfl, ok_bind, sample_followed.target, ok_bind, Graph.node_of rfl,
    ok_bind]
  dsimp only [Graph.new]
  rw [sample_followed.ends]
  rfl

theorem sample_expand : expand 200 ⟨payer, 0, none⟩ sampleGraph ⟨[], [payer], [], sampleEnds⟩ =
    sampleVisited sampleEnds := by
  unfold expand
  rw [sample_followed.spending, List.foldl_cons, List.foldl_nil, sample_followed.created]
  exact (if_neg sample_followed.fresh).trans (if_neg (show ¬ 200 ≤ 1 by decide))

theorem sample_merge : sampleEnds.merge sampleGraph 2000 = .ok sampleGraph := by
  have hedge : ∀ edges : List (Edge sampleSha), edges.length < 2000 → ∀ e ∈ sampleGraph.edges,
      Graph.mergeEdge ⟨.bitcoin, sampleGraph.nodes, edges, false⟩ e =
        ⟨.bitcoin, sampleGraph.nodes, SortedMap.insert Edge.key e edges, false⟩ := fun edges hfew e he =>
    if_pos ⟨(sample_followed.between e he).1, (sample_followed.between e he).2, hfew⟩
  unfold Graph.merge
  rw [ensure_eq (show sampleEnds.networkId = sampleGraph.networkId from rfl), ok_bind]
  show Except.ok ([inputEdge, outputEdge].foldl Graph.mergeEdge (sampleGraph.nodes.foldl (Graph.mergeNode 2000)
    sampleEnds)) = _
  rw [sample_followed.nodes, List.foldl_cons, hedge _ (by decide) _ List.mem_cons_self, List.foldl_cons,
    hedge _ (by decide) _ (List.mem_cons_of_mem _ List.mem_cons_self), sample_legs_inserted]
  rfl

theorem sample_round : PathSearch.round sampleSha sampleFacts 3 200 ⟨payer, 0, none⟩ ⟨[], [payer], [], sampleEnds⟩ =
    .ok (sampleVisited sampleGraph) := by
  unfold PathSearch.round
  rw [if_neg (by decide), sample_near, ok_bind]
  dsimp only
  rw [sample_expand]
  show (sampleEnds.merge sampleGraph 2000 >>= _) = _
  rw [sample_merge, ok_bind]
  rfl

theorem sample_search : search sampleSha sampleFacts payee 3 200 201 ⟨[⟨payer, 0, none⟩], [payer], [], sampleEnds⟩ =
    .ok (some (sampleVisited sampleGraph)) := by
  have hdone : 0 < 3 ∧ payee ∈ (sampleVisited sampleGraph).seen := ⟨by decide, List.mem_cons_self⟩
  unfold search
  dsimp only
  rw [sample_round, ok_bind, if_pos hdone]
  rfl

theorem sample_path : ∃ r, findPaths sampleSha sampleFacts payer payee 3 200 = .ok (some r) ∧
    r.paths.map Path.hopCount = [1] ∧ Answered sampleFacts payer payee 3 200 r := by
  obtain ⟨⟨paths, graph⟩, hshown, hhops⟩ := Option.map_eq_some_iff.mp sample_followed.shown
  have hfound : findPaths sampleSha sampleFacts payer payee 3 200 = .ok (some ⟨graph, paths, 2, 3⟩) := by
    unfold findPaths
    rw [sample_start, ok_bind, sample_search, ok_bind, Option.bind_eq_bind, Option.bind_some, hshown]
    rfl
  obtain ⟨r, hr, hanswered⟩ := paths_connected hfound
  obtain rfl := Option.some.inj hr
  exact ⟨_, hfound, hhops, hanswered⟩

end AmlReal.Bitcoin.PathConnectivity
