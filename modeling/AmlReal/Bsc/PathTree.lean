import AmlReal.Foundations.TreeSearch
import AmlReal.Bsc.Investigation

/-! # The paths of a search

Which paths there are, stated without a search, and the tree of the states that
following one transfer after another leads to. The tree lists just these paths,
each once. -/

namespace AmlReal.Bsc.PathTree
open AmlReal.Foundations.TreeSearch AmlReal.Bsc.Model AmlReal.Bsc.Investigation

/-- The transfer leads from `a` to `b` the way the path goes. -/
def Hop (direction : Direction) (e : Edge) (a b : String) : Prop :=
  match direction with
  | .outgoing => e.fromAddress = a ∧ e.toAddress = b
  | .incoming => e.toAddress = a ∧ e.fromAddress = b
  | .both => (e.fromAddress = a ∧ e.toAddress = b) ∨ (e.toAddress = a ∧ e.fromAddress = b)

/-- Each transfer joins two neighbours among the addresses. -/
def Hops (direction : Direction) : List String → List Edge → Prop
  | [_], [] => True
  | a :: b :: as, e :: es => Hop direction e a b ∧ Hops direction (b :: as) es
  | _, _ => False

/-- The second transaction is later on an outgoing path and earlier on an incoming one. -/
def Later (direction : Direction) (e f : Edge) : Prop :=
  if direction = .incoming then before f.position e.position else before e.position f.position

/-- A simple path from `source` over the given transfers that does not come to the zero address.
Unless it may go both ways, it keeps to one asset and its transactions are ordered. -/
structure SimplePath (rows : List Edge) (direction : Direction) (source : String) (n : Node) :
    Prop where
  starts : n.addresses.head? = some source
  hops : Hops direction n.addresses n.path
  simple : n.addresses.Nodup
  nonzero : ZERO_ADDRESS ∉ n.addresses.tail
  known : ∀ e ∈ n.path, e ∈ rows
  asset : direction ≠ .both → ∀ e ∈ n.path, ∀ f ∈ n.path, e.assetId = f.assetId ∧ e.tokenId = f.tokenId
  order : direction ≠ .both → n.path.Pairwise (Later direction)

theorem hops_length {direction : Direction} {as : List String} {es : List Edge}
    (h : Hops direction as es) : as.length = es.length + 1 := by
  induction as, es using Hops.induct with
  | case1 a => rfl
  | case2 a b as e es ih => simpa using ih h.2
  | case3 as es h1 h2 =>
    unfold Hops at h
    split at h
    · exact absurd rfl (h1 _ rfl)
    · exact absurd rfl (h2 _ _ _ _ _ rfl)
    · exact h.elim

theorem hops_append {direction : Direction} {as : List String} {es : List Edge} {a b : String} {e : Edge}
    (hlast : as.getLast? = some a) :
    Hops direction (as ++ [b]) (es ++ [e]) ↔ Hops direction as es ∧ Hop direction e a b := by
  induction as generalizing es with
  | nil => cases hlast
  | cons x as ih =>
    cases as with
    | nil =>
      obtain rfl := Option.some.inj hlast
      cases es with
      | nil => simp [Hops]
      | cons f es => cases es <;> simp [Hops]
    | cons y as =>
      rw [List.getLast?_cons_cons] at hlast
      cases es with
      | nil => cases as <;> simp [Hops]
      | cons f es =>
        have := @ih es hlast
        simp only [List.cons_append, Hops] at this ⊢
        rw [this, and_assoc]

theorem SimplePath.start (rows : List Edge) (direction : Direction) (source : String) :
    SimplePath rows direction source (Node.start source) :=
  ⟨rfl, trivial, by simp [Node.start], by simp [Node.start], by simp [Node.start],
    by simp [Node.start], by simp [Node.start]⟩

theorem SimplePath.addresses_ne_nil {rows : List Edge} {direction : Direction} {source : String} {n : Node}
    (h : SimplePath rows direction source n) : n.addresses ≠ [] := fun he => by
  have := h.starts
  rw [he] at this
  cases this

theorem getLast?_current {n : Node} (h : n.addresses ≠ []) : n.addresses.getLast? = some n.current := by
  rw [Node.current, List.getLast?_eq_some_getLast h]; rfl

/-! ## One more transfer -/

theorem far_iff {direction : Direction} {a b : String} {e : Edge} (h : touches a e = true) :
    far direction a e = some b ↔ Hop direction e a b := by
  have htouch : e.fromAddress = a ∨ e.toAddress = a := by simpa [touches] using h
  cases direction with
  | outgoing => by_cases hf : e.fromAddress = a <;> simp [far, Hop, hf]
  | incoming => by_cases ht : e.toAddress = a <;> simp [far, Hop, ht]
  | both =>
    by_cases hf : e.fromAddress = a
    · simp only [far, Hop, hf, if_true, Option.some.injEq, true_and]
      constructor
      · exact Or.inl
      · rintro (h | ⟨ht, h⟩)
        · exact h
        · exact ht.trans h
    · have ht := htouch.resolve_left hf
      simp [far, Hop, hf, ht]

theorem far_touches {direction : Direction} (h : direction ≠ .both) {a b : String} {e : Edge}
    (hfar : far direction a e = some b) : touches a e = true := by
  cases direction with
  | outgoing => by_cases hf : e.fromAddress = a <;> simp_all [far, touches]
  | incoming => by_cases ht : e.toAddress = a <;> simp_all [far, touches]
  | both => exact absurd rfl h

theorem follow_some {direction : Direction} {n k : Node} {e : Edge} : follow direction n e = some k ↔
    ∃ next, far direction n.current e = some next ∧ next ≠ ZERO_ADDRESS ∧ next ∉ n.addresses ∧
      (direction ≠ .both → ∀ last, n.path.getLast? = some last →
        continues last e (direction = .incoming) = true) ∧
      k = ⟨n.addresses ++ [next], n.path ++ [e]⟩ := by
  unfold follow
  cases hfar : far direction n.current e with
  | none => simp
  | some next =>
    simp only [Option.some.injEq, exists_eq_left']
    by_cases hnext : next = ZERO_ADDRESS ∨ next ∈ n.addresses
    · rw [if_pos hnext]
      refine iff_of_false (by simp) ?_
      rintro ⟨hz, hm, _⟩
      exact hnext.elim hz hm
    · rw [if_neg hnext]
      obtain ⟨hz, hm⟩ := not_or.mp hnext
      by_cases hcut : direction ≠ .both ∧
          n.path.getLast?.any (fun last => ¬ continues last e (direction = .incoming)) = true
      · rw [if_pos hcut]
        refine iff_of_false (by simp) ?_
        rintro ⟨_, _, hcont, _⟩
        obtain ⟨last, hlast, hno⟩ := (Option.any_eq_true _ _).mp hcut.2
        simp [hcont hcut.1 last hlast] at hno
      · rw [if_neg hcut]
        have hcont : direction ≠ .both → ∀ last, n.path.getLast? = some last →
            continues last e (direction = .incoming) = true := by
          intro hd last hlast
          by_contra hno
          exact hcut ⟨hd, (Option.any_eq_true _ _).mpr ⟨last, hlast, by simpa using hno⟩⟩
        simp only [Option.some.injEq]
        exact ⟨fun h => ⟨hz, hm, hcont, h.symm⟩, fun h => h.2.2.2.symm⟩

theorem before_trans {a b c : Nat × Nat} (hab : before a b = true) (hbc : before b c = true) :
    before a c = true := by
  simp only [before, decide_eq_true_eq] at *
  omega

theorem before_irrefl (a : Nat × Nat) : ¬ before a a = true := by simp [before]

theorem Later.trans {direction : Direction} {e f g : Edge} (h : Later direction e f)
    (h' : Later direction f g) : Later direction e g := by
  unfold Later at *
  split
  · rename_i hd
    rw [if_pos hd] at h h'
    exact before_trans h' h
  · rename_i hd
    rw [if_neg hd] at h h'
    exact before_trans h h'

theorem continues_iff {direction : Direction} {e f : Edge} :
    continues e f (direction = .incoming) = true ↔ e.assetId = f.assetId ∧ e.tokenId = f.tokenId ∧
      e.txHash ≠ f.txHash ∧ Later direction e f := by
  by_cases hd : direction = .incoming <;> simp [continues, Later, hd]

/-- Transactions in order are different transactions. -/
theorem Later.txHash_ne {direction : Direction} {e f : Edge} (h : Later direction e f)
    (hpos : e.txHash = f.txHash → e.position = f.position) : e.txHash ≠ f.txHash := by
  intro he
  unfold Later at h
  rw [hpos he] at h
  split at h <;> exact before_irrefl _ h

section
variable {rows : List Edge} {direction : Direction} {source : String}

theorem SimplePath.extend {n k : Node} {e : Edge} (h : SimplePath rows direction source n)
    (he : e ∈ rows) (htouch : touches n.current e = true) (hf : follow direction n e = some k) :
    SimplePath rows direction source k := by
  obtain ⟨next, hfar, hzero, hnew, hcont, rfl⟩ := follow_some.mp hf
  have hne := h.addresses_ne_nil
  refine ⟨?_, ?_, ?_, ?_, ?_, fun hd => ?_, fun hd => ?_⟩
  · show (n.addresses ++ [next]).head? = _
    rw [List.head?_append_of_ne_nil _ hne, h.starts]
  · exact (hops_append (getLast?_current hne)).mpr ⟨h.hops, (far_iff htouch).mp hfar⟩
  · exact List.nodup_append.mpr ⟨h.simple, List.nodup_singleton _, fun a ha b hb => by
      rw [List.mem_singleton.mp hb]; exact fun heq => hnew (heq ▸ ha)⟩
  · show ZERO_ADDRESS ∉ (n.addresses ++ [next]).tail
    rw [List.tail_append_of_ne_nil hne, List.mem_append, List.mem_singleton]
    exact not_or.mpr ⟨h.nonzero, fun hz => hzero hz.symm⟩
  · exact List.forall_mem_append.mpr ⟨h.known, by simpa using he⟩
  · -- the new transfer keeps the asset of the last one, which has that of all
    have hsame : ∀ f ∈ n.path, f.assetId = e.assetId ∧ f.tokenId = e.tokenId := by
      intro f hmem
      have hpath : n.path ≠ [] := List.ne_nil_of_mem hmem
      have hlast := List.getLast?_eq_some_getLast hpath
      obtain ⟨ha, ht, _⟩ := continues_iff.mp (hcont hd _ hlast)
      obtain ⟨ha', ht'⟩ := h.asset hd f hmem _ (List.getLast_mem hpath)
      exact ⟨ha'.trans ha, ht'.trans ht⟩
    intro f hf' g hg'
    rcases List.mem_append.mp hf' with hfm | hfe <;> rcases List.mem_append.mp hg' with hgm | hge
    · exact h.asset hd f hfm g hgm
    · rw [List.mem_singleton.mp hge]; exact hsame f hfm
    · rw [List.mem_singleton.mp hfe]; exact ⟨(hsame g hgm).1.symm, (hsame g hgm).2.symm⟩
    · rw [List.mem_singleton.mp hfe, List.mem_singleton.mp hge]; exact ⟨rfl, rfl⟩
  · refine List.pairwise_append.mpr ⟨h.order hd, List.pairwise_singleton _ _, fun f hmem g hg => ?_⟩
    rw [List.mem_singleton.mp hg]
    have hpath : n.path ≠ [] := List.ne_nil_of_mem hmem
    have hlast := List.getLast?_eq_some_getLast hpath
    obtain ⟨_, _, _, hlater⟩ := continues_iff.mp (hcont hd _ hlast)
    rcases eq_or_ne f (n.path.getLast hpath) with rfl | hfne
    · exact hlater
    · have hsplit := List.dropLast_append_getLast hpath
      have horder := h.order hd
      rw [← hsplit] at horder hmem
      have hin : f ∈ n.path.dropLast :=
        (List.mem_append.mp hmem).resolve_right fun hm => hfne (List.mem_singleton.mp hm)
      exact ((List.pairwise_append.mp horder).2.2 f hin _ (by simp)).trans hlater

/-- A longer path is a shorter one and one more transfer. -/
theorem SimplePath.shorten (hpos : ∀ e ∈ rows, ∀ f ∈ rows, e.txHash = f.txHash → e.position = f.position)
    {k : Node} {es : List Edge} {e : Edge} (h : SimplePath rows direction source k)
    (hpath : k.path = es ++ [e]) : ∃ n, SimplePath rows direction source n ∧ e ∈ rows ∧
      touches n.current e = true ∧ follow direction n e = some k ∧ n.path = es ∧
      k.addresses = n.addresses ++ [k.current] := by
  obtain ⟨addresses, path⟩ := k
  obtain rfl : path = es ++ [e] := hpath
  have hlength := hops_length h.hops
  obtain ⟨as, b, rfl⟩ : ∃ as b, addresses = as ++ [b] :=
    ⟨_, _, (List.dropLast_append_getLast h.addresses_ne_nil).symm⟩
  have hne : as ≠ [] := fun he => by
    rw [he] at hlength
    simp at hlength
  have hlast := getLast?_current (n := ⟨as, es⟩) hne
  obtain ⟨hhops, hhop⟩ := (hops_append hlast).mp h.hops
  have hsimple := List.nodup_append.mp h.simple
  have hzero := h.nonzero
  rw [List.tail_append_of_ne_nil hne, List.mem_append, not_or] at hzero
  have hknown := List.forall_mem_append.mp h.known
  have he : e ∈ rows := hknown.2 e (by simp)
  have htouch : touches (Node.mk as es).current e = true := by
    unfold Hop at hhop
    cases direction <;> simp only [touches, decide_eq_true_eq] at * <;> tauto
  have hshort : SimplePath rows direction source ⟨as, es⟩ := by
    refine ⟨?_, hhops, hsimple.1, hzero.1, hknown.1, fun hd f hf g hg => ?_, fun hd => ?_⟩
    · have := h.starts
      rwa [List.head?_append_of_ne_nil _ hne] at this
    · exact h.asset hd f (List.mem_append_left _ hf) g (List.mem_append_left _ hg)
    · exact (List.pairwise_append.mp (h.order hd)).1
  refine ⟨⟨as, es⟩, hshort, he, htouch, follow_some.mpr ⟨b, (far_iff htouch).mpr hhop, ?_, ?_, ?_, rfl⟩,
    rfl, by simp [Node.current]⟩
  · exact fun hb => hzero.2 (by simp [hb])
  · exact fun hb => hsimple.2.2 b hb b (by simp) rfl
  · intro hd last hlast'
    have hmem := List.mem_of_getLast? hlast'
    obtain ⟨ha, ht⟩ := h.asset hd last (List.mem_append_left _ hmem) e (by simp)
    have hlater := (List.pairwise_append.mp (h.order hd)).2.2 last hmem e (by simp)
    exact continues_iff.mpr ⟨ha, ht, hlater.txHash_ne (hpos last (hknown.1 last hmem) e he), hlater⟩

end

/-! ## The tree -/

/-- What a search looks at: the transfers of an address, where it does not go on, how far it goes
and what it reports for a path. -/
structure Search (ρ : Type) where
  incident : String → List Edge
  blocked : String → Bool
  maxHops : Nat
  emit : Direction → Node → List ρ

namespace Search
variable {ρ : Type} (s : Search ρ)

def children (direction : Direction) (n : Node) : List Node :=
  (s.incident n.current).filterMap (follow direction n)

/-- What the given transfers report. -/
def reports (direction : Direction) (n : Node) (rows : List Edge) : List ρ :=
  (rows.filterMap (follow direction n)).flatMap (s.emit direction)

/-- The states that the given transfers lead on to. -/
def opened (direction : Direction) (n : Node) (rows : List Edge) : List Node :=
  (rows.filterMap (follow direction n)).filter fun k =>
    ¬ s.blocked k.current ∧ k.path.length < s.maxHops

theorem mem_children {direction : Direction} {n k : Node} (h : k ∈ s.children direction n) :
    ∃ e ∈ s.incident n.current, follow direction n e = some k ∧ k.path = n.path ++ [e] ∧
      k.addresses = n.addresses ++ [k.current] := by
  obtain ⟨e, he, hf⟩ := List.mem_filterMap.mp h
  obtain ⟨next, _, _, _, _, rfl⟩ := follow_some.mp hf
  exact ⟨e, he, hf, rfl, by simp [Node.current]⟩

def tree : Tree (Direction × Node) ρ where
  out p := s.reports p.1 p.2 (s.incident p.2.current)
  kids p := (s.opened p.1 p.2 (s.incident p.2.current)).map (Prod.mk p.1)
  height p := s.maxHops - p.2.path.length
  lower p k hk := by
    obtain ⟨n, hn, rfl⟩ := List.mem_map.mp hk
    obtain ⟨hchild, hopen⟩ := List.mem_filter.mp hn
    obtain ⟨e, _, _, hpath, _⟩ := s.mem_children hchild
    have hshort : n.path.length < s.maxHops := (of_decide_eq_true hopen).2
    rw [hpath, List.length_append, List.length_singleton] at hshort
    show s.maxHops - n.path.length < s.maxHops - p.2.path.length
    rw [hpath, List.length_append, List.length_singleton]
    omega

/-- The search looks at exactly the given transfers. -/
structure Over (rows : List Edge) : Prop where
  mem : ∀ a e, e ∈ s.incident a ↔ e ∈ rows ∧ touches a e = true
  once : ∀ a, (s.incident a).Nodup
  positions : ∀ e ∈ rows, ∀ f ∈ rows, e.txHash = f.txHash → e.position = f.position

variable {s} {rows : List Edge} {direction : Direction} {source : String}

theorem path_nil {k : Node} (h : SimplePath rows direction source k) (hpath : k.path = []) :
    k = Node.start source := by
  obtain ⟨addresses, path⟩ := k
  obtain rfl : path = [] := hpath
  have hlength := hops_length h.hops
  obtain ⟨a, rfl⟩ := List.length_eq_one_iff.mp hlength
  rw [Node.start, ← Option.some.inj h.starts]

theorem tail_snoc {as : List String} (h : as ≠ []) (a : String) : (as ++ [a]).tail = as.tail ++ [a] :=
  List.tail_append_of_ne_nil h

/-- The states that the search comes to are the paths that have met no blocked address. -/
theorem below_iff (hover : s.Over rows) {d : Direction} {k : Node} :
    s.tree.Below (direction, Node.start source) (d, k) ↔ d = direction ∧
      SimplePath rows direction source k ∧ (∀ a ∈ k.addresses.tail, s.blocked a = false) ∧
      (k.path = [] ∨ k.path.length < s.maxHops) := by
  constructor
  · intro h
    obtain ⟨p, hp⟩ : ∃ p, p = (d, k) := ⟨_, rfl⟩
    rw [← hp] at h
    induction h generalizing d k with
    | refl =>
      cases hp
      exact ⟨rfl, SimplePath.start _ _ _, by simp [Node.start], Or.inl rfl⟩
    | @tail b c _ hk ih =>
      subst hp
      obtain ⟨d', n⟩ := b
      obtain ⟨rfl, hn, hopen, _⟩ := ih rfl
      obtain ⟨k', hk', heq⟩ := List.mem_map.mp hk
      cases heq
      obtain ⟨hchild, hcheck⟩ := List.mem_filter.mp hk'
      obtain ⟨e, he, hf, _, haddresses⟩ := s.mem_children hchild
      obtain ⟨hrow, htouch⟩ := (hover.mem _ e).mp he
      obtain ⟨hblocked, hshort⟩ := of_decide_eq_true hcheck
      refine ⟨rfl, hn.extend hrow htouch hf, ?_, Or.inr hshort⟩
      rw [haddresses, tail_snoc hn.addresses_ne_nil]
      exact List.forall_mem_append.mpr ⟨hopen, by simpa using hblocked⟩
  · rintro ⟨rfl, hpath, hopen, hshort⟩
    induction hlength : k.path.length generalizing k with
    | zero =>
      rw [path_nil hpath (List.eq_nil_of_length_eq_zero hlength)]
      exact .refl
    | succ m ih =>
      have hne : k.path ≠ [] := fun he => by rw [he] at hlength; cases hlength
      have hsplit := (List.dropLast_append_getLast hne).symm
      obtain ⟨n, hn, hrow, htouch, hf, hnpath, haddresses⟩ := hpath.shorten hover.positions hsplit
      have hmaxHops : k.path.length < s.maxHops := hshort.resolve_left hne
      have hnlength : n.path.length = m := by rw [hnpath, List.length_dropLast]; omega
      rw [haddresses, tail_snoc hn.addresses_ne_nil, List.forall_mem_append] at hopen
      refine (ih hn hopen.1 (Or.inr (by omega)) hnlength).tail ?_
      refine List.mem_map.mpr ⟨k, List.mem_filter.mpr ⟨?_, ?_⟩, rfl⟩
      · exact List.mem_filterMap.mpr ⟨_, (hover.mem _ _).mpr ⟨hrow, htouch⟩, hf⟩
      · have hblocked := hopen.2 k.current (by simp)
        simp [hblocked, hmaxHops]

/-- The addresses strictly between the ends of a path. -/
def between (n : Node) : List String := n.addresses.tail.dropLast

/-- The tree lists what is reported for the paths that pass no blocked address. -/
theorem mem_tree (hover : s.Over rows) (hhops : 0 < s.maxHops) {r : ρ} :
    r ∈ s.tree.all (direction, Node.start source) ↔ ∃ n, SimplePath rows direction source n ∧
      n.path ≠ [] ∧ n.path.length ≤ s.maxHops ∧ (∀ a ∈ between n, s.blocked a = false) ∧
      r ∈ s.emit direction n := by
  rw [Tree.mem_all]
  constructor
  · rintro ⟨⟨d, n⟩, hbelow, hout⟩
    obtain ⟨rfl, hn, hopen, hshort⟩ := (below_iff hover).mp hbelow
    obtain ⟨k, hk, hr⟩ := List.mem_flatMap.mp hout
    obtain ⟨e, he, hf, hpath, haddresses⟩ := s.mem_children hk
    obtain ⟨hrow, htouch⟩ := (hover.mem _ e).mp he
    refine ⟨k, hn.extend hrow htouch hf, by simp [hpath], ?_, ?_, hr⟩
    · rw [hpath, List.length_append, List.length_singleton]
      rcases hshort with hnil | hlt
      · rw [hnil]; exact hhops
      · exact hlt
    · rw [between, haddresses, tail_snoc hn.addresses_ne_nil, List.dropLast_concat]
      exact hopen
  · rintro ⟨k, hk, hne, hlength, hopen, hr⟩
    obtain ⟨n, hn, hrow, htouch, hf, hnpath, haddresses⟩ :=
      hk.shorten hover.positions (List.dropLast_append_getLast hne).symm
    rw [between, haddresses, tail_snoc hn.addresses_ne_nil, List.dropLast_concat] at hopen
    refine ⟨(direction, n), (below_iff hover).mpr ⟨rfl, hn, hopen, Or.inr ?_⟩, ?_⟩
    · have := List.length_pos_iff.mpr hne
      rw [hnpath, List.length_dropLast]; omega
    · refine List.mem_flatMap.mpr ⟨k, ?_, hr⟩
      exact List.mem_filterMap.mpr ⟨_, (hover.mem _ _).mpr ⟨hrow, htouch⟩, hf⟩

theorem children_nodup (hover : s.Over rows) (d : Direction) (n : Node) :
    ((s.children d n).map Node.path).Nodup := by
  refine List.pairwise_map.mpr (List.pairwise_filterMap.mpr ((hover.once n.current).imp ?_))
  intro e f hne k hk k' hk' heq
  obtain ⟨_, _, _, _, _, rfl⟩ := follow_some.mp hk
  obtain ⟨_, _, _, _, _, rfl⟩ := follow_some.mp hk'
  exact hne (List.cons.inj (List.append_cancel_left heq)).1

/-- Reports that tell their paths make the tree list each of them once. -/
theorem tree_traced (hover : s.Over rows) (trail : ρ → List Edge)
    (htrail : ∀ d n, ∀ r ∈ s.emit d n, trail r = n.path) (honce : ∀ d n, (s.emit d n).Nodup) :
    s.tree.Traced (fun p => p.2.path) trail where
  out p r hr := by
    obtain ⟨k, hk, hr⟩ := List.mem_flatMap.mp hr
    obtain ⟨e, _, _, hpath, _⟩ := s.mem_children hk
    exact ⟨e, (htrail _ k r hr).trans hpath⟩
  kids p k hk := by
    obtain ⟨n, hn, rfl⟩ := List.mem_map.mp hk
    obtain ⟨e, _, _, hpath, _⟩ := s.mem_children (List.mem_filter.mp hn).1
    exact ⟨e, hpath⟩
  distinct p := by
    have hnodup := children_nodup hover p.1 p.2
    show ((List.map _ _).map _).Nodup
    rw [List.map_map]
    exact hnodup.sublist ((List.filter_sublist).map Node.path)
  once p := by
    refine List.nodup_flatMap.mpr ⟨fun k _ => honce p.1 k, ?_⟩
    refine (List.pairwise_map.mp (children_nodup hover p.1 p.2)).imp ?_
    intro k k' hne r hr hr'
    exact hne ((htrail _ k r hr).symm.trans (htrail _ k' r hr'))

/-! ## Looking at a state -/

/-- What a look at some transfers of a state found and queued; the flag is set when anything was
left out. -/
structure Looked (s : Search ρ) (direction : Direction) (n : Node) (rows : List Edge)
    (flag flag' : Bool) (out : List ρ) (kids : List Node) : Prop where
  found : out.Sublist (s.reports direction n rows)
  queued : kids.Sublist (s.opened direction n rows)
  whole : flag' = false →
    flag = false ∧ out = s.reports direction n rows ∧ kids = s.opened direction n rows

theorem reports_append (s : Search ρ) (n : Node) (rows more : List Edge) :
    s.reports direction n (rows ++ more) = s.reports direction n rows ++ s.reports direction n more := by
  simp [reports]

theorem opened_append (s : Search ρ) (n : Node) (rows more : List Edge) :
    s.opened direction n (rows ++ more) = s.opened direction n rows ++ s.opened direction n more := by
  simp [opened]

namespace Looked
variable {n : Node} {more : List Edge} {flag flag' flag'' : Bool} {out out' : List ρ} {kids kids' : List Node}

theorem nil (s : Search ρ) (n : Node) (flag : Bool) : Looked s direction n [] flag flag [] [] :=
  ⟨List.Sublist.refl _, List.Sublist.refl _, fun h => ⟨h, rfl, rfl⟩⟩

theorem append (h : Looked s direction n rows flag flag' out kids)
    (h' : Looked s direction n more flag' flag'' out' kids') :
    Looked s direction n (rows ++ more) flag flag'' (out ++ out') (kids ++ kids') := by
  refine ⟨?_, ?_, fun hf => ?_⟩
  · rw [reports_append]; exact h.found.append h'.found
  · rw [opened_append]; exact h.queued.append h'.queued
  · obtain ⟨hf', hout', hkids'⟩ := h'.whole hf
    obtain ⟨hf, hout, hkids⟩ := h.whole hf'
    rw [reports_append, opened_append, hout, hout', hkids, hkids']
    exact ⟨hf, rfl, rfl⟩

/-- Leaving transfers out with the flag set. -/
theorem cut (h : Looked s direction n rows flag flag' out kids) (hsub : rows.Sublist more) :
    Looked s direction n more flag true out kids := by
  refine ⟨h.found.trans ?_, h.queued.trans ?_, fun hf => by cases hf⟩
  · exact (hsub.filterMap _).flatMap _
  · exact (hsub.filterMap _).filter _

/-- The transfers that were at hand stand for all of them unless the flag is set. -/
theorem of_rows {cut : Bool} (h : Looked s direction n rows (flag || cut) flag' out kids)
    (hpart : rows.Sublist more) (hwhole : cut = false → flag = false → rows = more) :
    Looked s direction n more flag flag' out kids := by
  refine ⟨(h.cut hpart).found, (h.cut hpart).queued, fun hf => ?_⟩
  obtain ⟨hflags, hout, hkids⟩ := h.whole hf
  obtain ⟨hflag, hcut⟩ := Bool.or_eq_false_iff.mp hflags
  rw [hwhole hcut hflag] at hout hkids
  exact ⟨hflag, hout, hkids⟩

/-- A transfer that does not go on. -/
theorem skip {e : Edge} (h : follow direction n e = none) :
    Looked s direction n [e] flag flag [] [] := by
  refine ⟨by simp, by simp, fun hf => ⟨hf, ?_, ?_⟩⟩
  · simp [reports, h]
  · simp [opened, h]

/-- A transfer that goes on, looked at in full. -/
theorem take {e : Edge} {k : Node} (h : follow direction n e = some k) :
    Looked s direction n [e] flag flag (s.emit direction k)
      (if s.blocked k.current = false ∧ k.path.length < s.maxHops then [k] else []) := by
  have hout : s.emit direction k = s.reports direction n [e] := by simp [reports, h]
  have hkids : (if s.blocked k.current = false ∧ k.path.length < s.maxHops then [k] else []) =
      s.opened direction n [e] := by
    simp [opened, h, List.filter_cons]
  rw [hout, hkids]
  exact ⟨List.Sublist.refl _, List.Sublist.refl _, fun hf => ⟨hf, rfl, rfl⟩⟩

/-- Not queueing a state, with the flag set. -/
theorem drop (h : Looked s direction n rows flag flag' out kids) :
    Looked s direction n rows flag true out [] :=
  ⟨h.found, List.nil_sublist _, fun hf => by cases hf⟩

end Looked

/-- The search after a look at the state in front. -/
theorem tracks_look {roots queue : List (Direction × Node)} {found out : List ρ} {n : Node}
    {kids : List Node} {flag flag' : Bool}
    (h : Tracks s.tree roots found ((direction, n) :: queue) flag)
    (hlook : Looked s direction n (s.incident n.current) flag flag' out kids) :
    Tracks s.tree roots (found ++ out) (queue ++ kids.map (Prod.mk direction)) flag' := by
  refine h.expand hlook.found.subperm (hlook.queued.map _).subperm fun hf => ?_
  obtain ⟨hflag, hout, hkids⟩ := hlook.whole hf
  rw [hout, hkids]
  exact ⟨hflag, List.Perm.refl _, List.Perm.refl _⟩

end Search

end AmlReal.Bsc.PathTree
