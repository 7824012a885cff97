import AmlReal.Foundations.TreeSearch

/-! # Simple paths of a multigraph

A search that follows one edge after another and comes to no vertex twice looks at
a tree of states. The tree lists the simple paths from the start to a target, of
at most so many edges, each once. -/

namespace AmlReal.Foundations.SimplePaths
open AmlReal.Foundations.TreeSearch

/-- The vertices of a path and the edges between them. -/
@[ext] structure Walk (α ε : Type) where
  vertices : List α
  edges : List ε
  deriving DecidableEq

section
variable {α ε : Type} (hop : ε → α → α → Prop)

/-- Each edge joins two neighbours among the vertices. -/
def Hops : List α → List ε → Prop
  | [_], [] => True
  | a :: b :: as, e :: es => hop e a b ∧ Hops (b :: as) es
  | _, _ => False

/-- A path that starts at `source` and comes to no vertex twice. -/
structure Simple (source : α) (w : Walk α ε) : Prop where
  starts : w.vertices.head? = some source
  hops : Hops hop w.vertices w.edges
  simple : w.vertices.Nodup

variable {hop}

theorem hops_length {as : List α} {es : List ε} (h : Hops hop as es) : as.length = es.length + 1 := by
  induction as, es using Hops.induct with
  | case1 a => rfl
  | case2 a b as e es ih => simpa using ih h.2
  | case3 as es h1 h2 =>
    unfold Hops at h
    split at h
    · exact absurd rfl (h1 _ rfl)
    · exact absurd rfl (h2 _ _ _ _ _ rfl)
    · exact h.elim

theorem hops_append {as : List α} {es : List ε} {a b : α} {e : ε} (hlast : as.getLast? = some a) :
    Hops hop (as ++ [b]) (es ++ [e]) ↔ Hops hop as es ∧ hop e a b := by
  induction as generalizing es with
  | nil => cases hlast
  | cons x as ih =>
    cases as with
    | nil =>
      obtain rfl := Option.some.inj hlast
      cases es with
      | nil => simp [Hops]
      | cons f es => cases es <;> simp [Hops]
    | cons y as =>
      rw [List.getLast?_cons_cons] at hlast
      cases es with
      | nil => cases as <;> simp [Hops]
      | cons f es =>
        have hrest : Hops hop (y :: as ++ [b]) (es ++ [e]) ↔ Hops hop (y :: as) es ∧ hop e a b := ih hlast
        simp only [List.cons_append, Hops] at hrest ⊢
        rw [hrest, and_assoc]

def Walk.start (source : α) : Walk α ε := ⟨[source], []⟩

def Walk.extend (w : Walk α ε) (e : ε) (b : α) : Walk α ε := ⟨w.vertices ++ [b], w.edges ++ [e]⟩

theorem simple_start (source : α) : Simple hop source (Walk.start source) :=
  ⟨rfl, trivial, List.nodup_singleton source⟩

theorem Simple.vertices_ne_nil {source : α} {w : Walk α ε} (h : Simple hop source w) :
    w.vertices ≠ [] := by
  intro hnil
  have hstart := h.starts
  rw [hnil] at hstart
  cases hstart

theorem Simple.of_edges_nil {source : α} {w : Walk α ε} (h : Simple hop source w) (hedges : w.edges = []) :
    w = Walk.start source := by
  obtain ⟨vertices, edges⟩ := w
  obtain rfl : edges = [] := hedges
  obtain ⟨a, rfl⟩ := List.length_eq_one_iff.mp (hops_length h.hops)
  rw [Walk.start, ← Option.some.inj h.starts]

theorem simple_extend {source a b : α} {w : Walk α ε} {e : ε} (hlast : w.vertices.getLast? = some a) :
    Simple hop source (w.extend e b) ↔ Simple hop source w ∧ hop e a b ∧ b ∉ w.vertices := by
  have hne : w.vertices ≠ [] := by
    intro hnil
    rw [hnil] at hlast
    cases hlast
  constructor
  · rintro ⟨hstart, hhops, hsimple⟩
    obtain ⟨hhops, hhop⟩ := (hops_append hlast).mp hhops
    obtain ⟨hnodup, _, hnew⟩ := List.nodup_append.mp hsimple
    refine ⟨⟨?_, hhops, hnodup⟩, hhop, fun hb => hnew b hb b (by simp) rfl⟩
    simpa [Walk.extend, List.head?_append_of_ne_nil _ hne] using hstart
  · rintro ⟨⟨hstart, hhops, hsimple⟩, hhop, hb⟩
    refine ⟨?_, (hops_append hlast).mpr ⟨hhops, hhop⟩, ?_⟩
    · simpa [Walk.extend, List.head?_append_of_ne_nil _ hne] using hstart
    · refine List.nodup_append.mpr ⟨hsimple, by simp, fun x hx y hy hxy => ?_⟩
      rw [List.mem_singleton.mp hy] at hxy
      exact hb (hxy ▸ hx)

/-- A path with an edge is a shorter path and its last edge. -/
theorem Simple.shorten {source : α} {w : Walk α ε} (h : Simple hop source w) (hne : w.edges ≠ []) :
    ∃ (u : Walk α ε) (e : ε) (a b : α), w = u.extend e b ∧ u.vertices.getLast? = some a ∧
      w.vertices.getLast? = some b := by
  obtain ⟨vertices, edges⟩ := w
  have hlength := hops_length h.hops
  have hedges : 0 < edges.length := List.length_pos_iff.mpr hne
  have hvertices : vertices ≠ [] := h.vertices_ne_nil
  have hinit : vertices.dropLast ≠ [] := by
    intro hnil
    have hshort := congrArg List.length hnil
    rw [List.length_dropLast] at hshort
    simp only at hlength
    simp only [List.length_nil] at hshort
    omega
  refine ⟨⟨vertices.dropLast, edges.dropLast⟩, edges.getLast hne, vertices.dropLast.getLast hinit,
    vertices.getLast hvertices, ?_, List.getLast?_eq_some_getLast hinit,
    List.getLast?_eq_some_getLast hvertices⟩
  rw [Walk.extend, List.dropLast_append_getLast, List.dropLast_append_getLast]

end

/-! ## The tree of a search -/

/-- A search from a vertex over the edges that are listed for it. -/
structure Search (α ε : Type) where
  incident : α → List ε
  /-- where an edge leads to -/
  next : α → ε → Option α
  target : α
  bound : Nat

/-- A state: the path so far and where it has come to. -/
structure State (α ε : Type) where
  current : α
  walk : Walk α ε

def State.start {α ε : Type} (source : α) : State α ε := ⟨source, Walk.start source⟩

namespace Search
variable {α ε : Type} [DecidableEq α] (s : Search α ε)

/-- The state that an edge leads on to, unless it goes back to a vertex of the path. -/
def follow (p : State α ε) (e : ε) : Option (State α ε) :=
  match s.next p.current e with
  | none => none
  | some b => if b ∈ p.walk.vertices then none else some ⟨b, p.walk.extend e b⟩

/-- The paths to the target among the given edges. -/
def found (p : State α ε) (edges : List ε) : List (Walk α ε) :=
  ((edges.filterMap (s.follow p)).filter fun k => k.current = s.target).map State.walk

/-- The other states among the given edges. -/
def opened (p : State α ε) (edges : List ε) : List (State α ε) :=
  (edges.filterMap (s.follow p)).filter fun k => k.current ≠ s.target

theorem follow_some {p k : State α ε} {e : ε} : s.follow p e = some k ↔
    ∃ b, s.next p.current e = some b ∧ b ∉ p.walk.vertices ∧ k = ⟨b, p.walk.extend e b⟩ := by
  unfold follow
  cases s.next p.current e with
  | none => simp
  | some b =>
    by_cases hb : b ∈ p.walk.vertices
    · simp [hb]
    · simp [hb, eq_comm]

theorem follow_none {p : State α ε} {e : ε} (h : s.next p.current e = none) : s.follow p e = none := by
  simp only [follow, h]

theorem follow_seen {p : State α ε} {e : ε} {b : α} (h : s.next p.current e = some b)
    (hb : b ∈ p.walk.vertices) : s.follow p e = none := by
  simp only [follow, h, if_pos hb]

theorem follow_new {p : State α ε} {e : ε} {b : α} (h : s.next p.current e = some b)
    (hb : b ∉ p.walk.vertices) : s.follow p e = some ⟨b, p.walk.extend e b⟩ := by
  simp only [follow, h, if_neg hb]

theorem found_cons (p : State α ε) (e : ε) (rest : List ε) :
    s.found p (e :: rest) = s.found p [e] ++ s.found p rest := by
  rw [← List.singleton_append]
  simp only [found, List.filterMap_append, List.filter_append, List.map_append]

theorem opened_cons (p : State α ε) (e : ε) (rest : List ε) :
    s.opened p (e :: rest) = s.opened p [e] ++ s.opened p rest := by
  rw [← List.singleton_append]
  simp only [opened, List.filterMap_append, List.filter_append]

/-- An edge that does not go on. -/
theorem one_none {p : State α ε} {e : ε} (h : s.follow p e = none) :
    s.found p [e] = [] ∧ s.opened p [e] = [] := by
  simp [found, opened, h]

/-- An edge that leads to the target. -/
theorem one_target {p k : State α ε} {e : ε} (h : s.follow p e = some k) (hk : k.current = s.target) :
    s.found p [e] = [k.walk] ∧ s.opened p [e] = [] := by
  simp [found, opened, h, hk]

/-- An edge that leads elsewhere. -/
theorem one_onward {p k : State α ε} {e : ε} (h : s.follow p e = some k) (hk : k.current ≠ s.target) :
    s.found p [e] = [] ∧ s.opened p [e] = [k] := by
  simp [found, opened, h, hk]

theorem found_sublist (p : State α ε) {xs ys : List ε} (h : xs.Sublist ys) :
    (s.found p xs).Sublist (s.found p ys) := ((h.filterMap _).filter _).map _

theorem opened_sublist (p : State α ε) {xs ys : List ε} (h : xs.Sublist ys) :
    (s.opened p xs).Sublist (s.opened p ys) := (h.filterMap _).filter _

theorem found_perm (p : State α ε) {xs ys : List ε} (h : xs.Perm ys) :
    (s.found p xs).Perm (s.found p ys) := ((h.filterMap _).filter _).map _

theorem opened_perm (p : State α ε) {xs ys : List ε} (h : xs.Perm ys) :
    (s.opened p xs).Perm (s.opened p ys) := (h.filterMap _).filter _

/-- Some of the edges, in any order. -/
theorem part_subperm (p : State α ε) {xs ys : List ε} (h : xs.Subperm ys) :
    (s.found p xs).Subperm (s.found p ys) ∧ (s.opened p xs).Subperm (s.opened p ys) := by
  obtain ⟨zs, hperm, hsub⟩ := h
  exact ⟨(s.found_perm p hperm).symm.subperm.trans (s.found_sublist p hsub).subperm,
    (s.opened_perm p hperm).symm.subperm.trans (s.opened_sublist p hsub).subperm⟩

theorem opened_length_le (p : State α ε) (xs : List ε) : (s.opened p xs).length ≤ xs.length :=
  Nat.le_trans (List.length_filter_le _ _) (List.length_filterMap_le _ _)

theorem follow_edges {p k : State α ε} {e : ε} (h : s.follow p e = some k) :
    k.walk.edges = p.walk.edges ++ [e] := by
  obtain ⟨b, _, _, rfl⟩ := s.follow_some.mp h
  rfl

theorem found_length {p : State α ε} {edges : List ε} {w : Walk α ε} (h : w ∈ s.found p edges) :
    w.edges.length = p.walk.edges.length + 1 := by
  obtain ⟨k, hk, rfl⟩ := List.mem_map.mp h
  obtain ⟨e, _, hf⟩ := List.mem_filterMap.mp (List.mem_of_mem_filter hk)
  rw [s.follow_edges hf, List.length_append, List.length_singleton]

theorem opened_length {p k : State α ε} {edges : List ε} (h : k ∈ s.opened p edges) :
    k.walk.edges.length = p.walk.edges.length + 1 := by
  obtain ⟨e, _, hf⟩ := List.mem_filterMap.mp (List.mem_of_mem_filter h)
  rw [s.follow_edges hf, List.length_append, List.length_singleton]

/-- The edges of a vertex are looked at while the path is short enough. -/
def tree : Tree (State α ε) (Walk α ε) where
  out p := if p.walk.edges.length < s.bound then s.found p (s.incident p.current) else []
  kids p := if p.walk.edges.length < s.bound then s.opened p (s.incident p.current) else []
  height p := s.bound - p.walk.edges.length
  lower p k hk := by
    split at hk
    · rw [s.opened_length hk]
      omega
    · cases hk

/-- Nothing lies below a path that has come to the bound. -/
theorem all_deep {p : State α ε} (h : s.bound ≤ p.walk.edges.length) : s.tree.all p = [] := by
  have hdeep : ¬ p.walk.edges.length < s.bound := Nat.not_lt_of_le h
  have hout : s.tree.out p = [] := if_neg hdeep
  have hkids : s.tree.kids p = [] := if_neg hdeep
  rw [Tree.all_eq, hout, hkids]
  rfl

/-- The edges listed for a vertex are the hops from it, each listed once. -/
structure Over (hop : ε → α → α → Prop) : Prop where
  hops : ∀ a e b, (e ∈ s.incident a ∧ s.next a e = some b) ↔ hop e a b
  once : ∀ a, (s.incident a).Nodup

variable {s} {hop : ε → α → α → Prop} {source : α}

/-- The states that the search comes to are the simple paths that have not met the target. -/
theorem below_iff (hover : s.Over hop) {p : State α ε} :
    s.tree.Below (State.start source) p ↔ Simple hop source p.walk ∧
      p.walk.vertices.getLast? = some p.current ∧ s.target ∉ p.walk.vertices.tail ∧
      p.walk.edges.length ≤ s.bound := by
  constructor
  · intro h
    induction h with
    | refl => exact ⟨simple_start source, rfl, List.not_mem_nil, Nat.zero_le _⟩
    | @tail b k _ hk ih =>
      obtain ⟨hsimple, hlast, hopen, _⟩ := ih
      have hk : k ∈ if b.walk.edges.length < s.bound then s.opened b (s.incident b.current) else [] := hk
      split at hk
      · rename_i hshort
        obtain ⟨hchild, hother⟩ := List.mem_filter.mp hk
        obtain ⟨e, he, hf⟩ := List.mem_filterMap.mp hchild
        obtain ⟨c, hnext, hnew, rfl⟩ := s.follow_some.mp hf
        have hhop := (hover.hops _ e c).mp ⟨he, hnext⟩
        refine ⟨(simple_extend hlast).mpr ⟨hsimple, hhop, hnew⟩, by simp [Walk.extend], ?_, ?_⟩
        · have hne : c ≠ s.target := by simpa using hother
          rw [Walk.extend, List.tail_append_of_ne_nil hsimple.vertices_ne_nil, List.mem_append]
          rintro (hmem | hmem)
          · exact hopen hmem
          · exact hne (List.mem_singleton.mp hmem).symm
        · rw [Walk.extend, List.length_append, List.length_singleton]
          omega
      · cases hk
  · rintro ⟨hsimple, hlast, hopen, hshort⟩
    induction hlength : p.walk.edges.length generalizing p with
    | zero =>
      have hwalk := hsimple.of_edges_nil (List.eq_nil_of_length_eq_zero hlength)
      obtain ⟨current, walk⟩ := p
      obtain rfl : walk = Walk.start source := hwalk
      obtain rfl : source = current := Option.some.inj hlast
      exact .refl
    | succ n ih =>
      have hne : p.walk.edges ≠ [] := by
        intro hnil
        rw [hnil] at hlength
        cases hlength
      obtain ⟨u, e, a, b, hwalk, hbefore, hend⟩ := hsimple.shorten hne
      obtain ⟨current, walk⟩ := p
      obtain rfl : walk = u.extend e b := hwalk
      obtain rfl : b = current := Option.some.inj (hend.symm.trans hlast)
      obtain ⟨hu, hhop, hnew⟩ := (simple_extend hbefore).mp hsimple
      rw [Walk.extend, List.tail_append_of_ne_nil hu.vertices_ne_nil, List.mem_append, not_or] at hopen
      have hcount : u.edges.length = n := by
        simpa [Walk.extend] using hlength
      have hbelow := ih (p := ⟨a, u⟩) hu hbefore hopen.1 (by
        show u.edges.length ≤ s.bound
        simp only [Walk.extend, List.length_append, List.length_singleton] at hshort
        omega) hcount
      refine hbelow.tail ?_
      obtain ⟨he, hnext⟩ := (hover.hops a e b).mpr hhop
      have hlt : u.edges.length < s.bound := by
        simp only [Walk.extend, List.length_append, List.length_singleton] at hshort
        omega
      show _ ∈ if u.edges.length < s.bound then s.opened ⟨a, u⟩ (s.incident a) else []
      rw [if_pos hlt]
      refine List.mem_filter.mpr ⟨List.mem_filterMap.mpr ⟨e, he, ?_⟩, ?_⟩
      · exact s.follow_some.mpr ⟨b, hnext, hnew, rfl⟩
      · exact decide_eq_true fun heq => hopen.2 (List.mem_singleton.mpr heq.symm)

/-- The tree lists the simple paths to the target, up to the bound. -/
theorem mem_tree (hover : s.Over hop) (hsource : source ≠ s.target) {w : Walk α ε} :
    w ∈ s.tree.all (State.start source) ↔ Simple hop source w ∧
      w.vertices.getLast? = some s.target ∧ w.edges.length ≤ s.bound := by
  rw [Tree.mem_all]
  constructor
  · rintro ⟨p, hbelow, hout⟩
    obtain ⟨hsimple, hlast, _, _⟩ := (below_iff hover).mp hbelow
    have hout : w ∈ if p.walk.edges.length < s.bound then s.found p (s.incident p.current) else [] := hout
    split at hout
    · rename_i hshort
      obtain ⟨k, hk, rfl⟩ := List.mem_map.mp hout
      obtain ⟨hchild, htarget⟩ := List.mem_filter.mp hk
      obtain ⟨e, he, hf⟩ := List.mem_filterMap.mp hchild
      obtain ⟨c, hnext, hnew, rfl⟩ := s.follow_some.mp hf
      have hhop := (hover.hops _ e c).mp ⟨he, hnext⟩
      have htarget : c = s.target := by simpa using htarget
      refine ⟨(simple_extend hlast).mpr ⟨hsimple, hhop, hnew⟩, by simp [Walk.extend, htarget], ?_⟩
      rw [Walk.extend, List.length_append, List.length_singleton]
      omega
    · cases hout
  · rintro ⟨hsimple, hlast, hshort⟩
    have hne : w.edges ≠ [] := by
      intro hnil
      have hstart := hsimple.of_edges_nil hnil
      rw [hstart] at hlast
      exact hsource (Option.some.inj hlast)
    obtain ⟨u, e, a, b, rfl, hbefore, hend⟩ := hsimple.shorten hne
    obtain rfl : b = s.target := Option.some.inj (hend.symm.trans hlast)
    obtain ⟨hu, hhop, hnew⟩ := (simple_extend hbefore).mp hsimple
    obtain ⟨he, hnext⟩ := (hover.hops a e _).mpr hhop
    have hlt : u.edges.length < s.bound := by
      simp only [Walk.extend, List.length_append, List.length_singleton] at hshort
      omega
    refine ⟨⟨a, u⟩, (below_iff hover).mpr ⟨hu, hbefore, fun hmem => hnew (List.mem_of_mem_tail hmem),
      Nat.le_of_lt hlt⟩, ?_⟩
    show _ ∈ if u.edges.length < s.bound then s.found ⟨a, u⟩ (s.incident a) else []
    rw [if_pos hlt]
    refine List.mem_map.mpr ⟨⟨s.target, u.extend e s.target⟩, List.mem_filter.mpr ⟨?_, by simp⟩, rfl⟩
    exact List.mem_filterMap.mpr ⟨e, he, s.follow_some.mpr ⟨_, hnext, hnew, rfl⟩⟩

theorem follow_nodup (hover : s.Over hop) (p : State α ε) :
    (((s.incident p.current).filterMap (s.follow p)).map fun k => k.walk.edges).Nodup := by
  refine List.pairwise_map.mpr (List.pairwise_filterMap.mpr ((hover.once p.current).imp ?_))
  intro e f hne k hk k' hk' heq
  rw [s.follow_edges hk, s.follow_edges hk'] at heq
  exact hne (List.cons.inj (List.append_cancel_left heq)).1

theorem tree_traced (hover : s.Over hop) :
    s.tree.Traced (fun p => p.walk.edges) Walk.edges where
  out p w hw := by
    have hw : w ∈ if p.walk.edges.length < s.bound then s.found p (s.incident p.current) else [] := hw
    split at hw
    · obtain ⟨k, hk, rfl⟩ := List.mem_map.mp hw
      obtain ⟨e, _, hf⟩ := List.mem_filterMap.mp (List.mem_of_mem_filter hk)
      exact ⟨e, s.follow_edges hf⟩
    · cases hw
  kids p k hk := by
    have hk : k ∈ if p.walk.edges.length < s.bound then s.opened p (s.incident p.current) else [] := hk
    split at hk
    · obtain ⟨e, _, hf⟩ := List.mem_filterMap.mp (List.mem_of_mem_filter hk)
      exact ⟨e, s.follow_edges hf⟩
    · cases hk
  distinct p := by
    show (List.map _ (if p.walk.edges.length < s.bound then _ else _)).Nodup
    split
    · exact (follow_nodup hover p).sublist ((List.filter_sublist).map _)
    · exact List.nodup_nil
  once p := by
    show (if p.walk.edges.length < s.bound then s.found p (s.incident p.current) else []).Nodup
    split
    · refine List.Nodup.of_map Walk.edges ?_
      rw [found, List.map_map]
      exact (follow_nodup hover p).sublist ((List.filter_sublist).map _)
    · exact List.nodup_nil

end Search

end AmlReal.Foundations.SimplePaths
