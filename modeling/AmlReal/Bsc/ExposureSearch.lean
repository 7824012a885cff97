import AmlReal.Foundations.Floats
import AmlReal.Bsc.PathTree

/-! # The exposure search

`exposure` of `intelligence.rs`: paths of up to three transfers from an address
to reviewed risk labels, both ways. It flags the rows, addresses and states that
it leaves out, but not the labels of an address beyond the first hundred. -/

namespace AmlReal.Bsc.ExposureSearch
open AmlReal.Foundations.Checks AmlReal.Foundations.EntryList AmlReal.Foundations.TreeSearch
open AmlReal.Foundations.Floats AmlReal.Bsc.Model AmlReal.Bsc.Investigation AmlReal.Bsc.PathTree

/-! ## Labels -/

/-- A row of `intelligence_active`. The query also returns `entity_id` as `cluster_id` and a
constant `membership_type`; the network is not in its result. -/
structure Label where
  networkId : String
  claimId : String
  claimKind : String
  address : String
  entityId : String
  entityName : String
  entityType : String
  addressRole : String
  confidence : ℚ
  riskLevel : Nat
  isExposureSeed : Bool
  seedCategory : String
  sourceId : String
  sourceReference : String
  evidenceRefs : List String
  reviewStatus : String
  reviewedBy : String
  revision : Nat
  createdAtUnixMs : Nat
  deriving DecidableEq

/-- The view keeps one revision of each claim. -/
structure Labels where
  rows : List Label
  ids : (rows.map fun l => (l.networkId, l.claimId)).Nodup

/-- The order of the query: the highest confidence first, then by claim. -/
def ranked (a b : Label) : Prop :=
  b.confidence < a.confidence ∨ (a.confidence = b.confidence ∧ compare a.claimId b.claimId ≠ .gt)

instance (a b : Label) : Decidable (ranked a b) := inferInstanceAs (Decidable (_ ∨ _))

/-- All active labels of an address, in order. -/
def labelled (labels : Labels) (address : String) : List Label :=
  (labels.rows.filter fun l => l.networkId = BSC_NETWORK_ID ∧ l.address = address).insertionSort ranked

def active (labels : Labels) (address : String) : List Label := (labelled labels address).take 100

def service (labels : List Label) : Bool :=
  labels.any fun l => l.entityType.toLower ∈ ["exchange", "bridge", "custodian", "dex"]

/-! ## Rows of the reply -/

/-- A path in one direction and the seed label at its end. -/
abbrev Finding := Direction × Node × Label

structure Row where
  pathId : String
  runId : String
  seedAddress : String
  seedEntityId : String
  seedCategory : String
  seedClaim : Label
  direction : String
  hopCount : Nat
  assetId : String
  exposureScore : ℚ
  serviceMediated : Bool
  continuityType : String
  pathAddresses : List String
  relationshipIds : List String
  txHashes : List String
  transfers : List Edge
  amountContinuityRatio : ℚ
  policyVersion : String
  asOfBlock : Nat

structure Coverage where
  maxHops : Nat
  maxAddresses : Nat
  perAddressLimit : Nat
  truncated : Bool
  policyVersion : String
  storage : String
  source : String
  limitations : List String

/-- `f64::MAX` -/
def F64_MAX : ℚ := (2 ^ 53 - 1) * 2 ^ 971

section
variable (F : FloatOps) (parse : String → Option ℚ) (digest : String → Bool → List String → String)

def amountContinuity (path : List Edge) : ℚ :=
  let amounts := path.map fun e => (parse e.amount).getD 0
  let largest := amounts.foldl max 0
  let smallest := amounts.foldl min F64_MAX
  if 0 < largest then F.div smallest largest else 0

def strength (seed : Label) (path : List Edge) (at' : Nat) : ℚ :=
  let first := path.head?.elim 0 Edge.blockTimestampUnixMs
  let age := F.div (F.ofNat (at' - first)) 86400000
  F.mul (F.mul (F.mul (F.div (F.mul seed.confidence (F.ofNat seed.riskLevel)) 100)
    (F.powi (13 / 20) (path.length - 1))) (F.powf (1 / 2) (F.div age 365))) (amountContinuity F parse path)

/-- The row for one seed label at the end of a path. -/
def row (address : String) (height at' : Nat) (boundary : Bool) (direction : Direction) (k : Node)
    (seed : Label) : Row :=
  let ids := k.path.map Edge.id
  { pathId := digest address (direction = .incoming) ids
    runId := "bsc-exposure-v1:" ++ toString at' ++ ":" ++ toString height
    seedAddress := k.current, seedEntityId := seed.entityId, seedCategory := seed.seedCategory
    seedClaim := seed
    direction := if direction = .incoming then "RECEIVED_FROM_SEED" else "SENT_TO_SEED"
    hopCount := k.path.length
    assetId := k.path.getLast?.elim "" Edge.assetId
    exposureScore := clamp (strength F parse seed k.path at') 0 1
    serviceMediated := boundary, continuityType := "same_asset_ordered_transactions"
    pathAddresses := k.addresses, relationshipIds := ids, txHashes := k.path.map Edge.txHash
    transfers := k.path, amountContinuityRatio := amountContinuity F parse k.path
    policyVersion := "bsc_exposure_v1", asOfBlock := height }

/-! ## The search -/

structure Searching where
  labels : List (String × List Label)
  cache : List (String × List Edge)
  queue : List (Direction × Node)
  results : List Row
  states : Nat
  truncated : Bool

variable (db : Transfers) (labels : Labels) (address : String) (height at' : Nat)

/-- Both directions, with the labels of the address at hand. -/
def Searching.start : Searching where
  labels := [(address, active labels address)]
  cache := []
  queue := [(.outgoing, Node.start address), (.incoming, Node.start address)]
  results := []
  states := 0
  truncated := false

/-- The labels of an address, from the map or by a query while the map has room. -/
def labelsOf (known : List (String × List Label)) (next : String) :
    Option (List Label × List (String × List Label)) :=
  match known.lookup next with
  | some found => some (found, known)
  | none =>
    if 128 ≤ known.length then none
    else some (active labels next, (next, active labels next) :: known)

/-- The rows for the seeds at the end of a path. -/
def Searching.report (s : Searching) (known : List (String × List Label)) (boundary : Bool)
    (direction : Direction) (k : Node) (found : List Label) : Searching :=
  { s with
    labels := known
    results := s.results ++ (found.filter Label.isExposureSeed).map
      (row F parse digest address height at' boundary direction k) }

/-- The loop over the rows of one address. -/
def visit (subjectService : Bool) (direction : Direction) (n : Node) : List Edge → Searching → Searching
  | [], s => s
  | e :: rest, s =>
    match follow direction n e with
    | none => visit subjectService direction n rest s
    | some k =>
      match labelsOf labels s.labels k.current with
      | none => visit subjectService direction n rest { s with truncated := true }
      | some (found, known) =>
        let boundary := subjectService || service found
        let s := s.report F parse digest address height at' known boundary direction k found
        if ¬ boundary ∧ k.path.length < 3 then
          if s.queue.length < 1000 then
            visit subjectService direction n rest { s with queue := s.queue ++ [(direction, k)] }
          else visit subjectService direction n rest { s with truncated := true }
        else visit subjectService direction n rest s

/-- The loop over the queue, for so many states. -/
def search (subjectService : Bool) : Nat → Searching → Option Searching
  | 0, _ => none
  | fuel + 1, s =>
    match s.queue with
    | [] => some s
    | (direction, n) :: rest =>
      let s := { s with queue := rest, states := s.states + 1 }
      if 1000 < s.states ∨ 32 ≤ s.cache.length ∨ 50 ≤ s.results.length then
        some { s with truncated := true }
      else
        let (rows, cache, cut) := fetch db SearchOptions.default height 100 s.cache n.current
        search subjectService fuel (visit F parse digest labels address height at' subjectService
          direction n rows { s with cache := cache, truncated := s.truncated || cut })

def coverage (truncated : Bool) : Coverage where
  maxHops := 3
  maxAddresses := 32
  perAddressLimit := 100
  truncated := truncated
  policyVersion := "bsc_exposure_v1"
  storage := "central_investigation_snapshot"
  source := "canonical_clickhouse"
  limitations := ["Service boundaries stop traversal. No common-exchange guilt association.",
    "Amount continuity is a same-asset size heuristic, not attributed illicit fund value.",
    "No paths found does not prove absence of exposure. Limits and missing labels apply."]

/-- The strongest rows, at most 50 of them. -/
def reply (s : Searching) : List Row × Coverage :=
  ((s.results.insertionSort fun a b => b.exposureScore ≤ a.exposureScore).take 50,
    coverage (s.truncated || 50 < s.results.length))

/-- The state after the first 1000 ends the search. -/
def exposure : Except String (List Row × Coverage) := do
  let s ← context (search F parse digest db labels address height at' (service (active labels address))
    1001 (Searching.start labels address)) "unfinished"
  pure (reply s)

end

/-! ## What there is to find -/

section
variable (db : Transfers) (shown : String → List Label) (address : String) (height : Nat)

/-- An exposure under the labels that `shown` gives: a path of one to three transfers from the
address to a seed that passes no service; from a service it is one transfer. -/
structure Exposure (f : Finding) : Prop where
  oneWay : f.1 ≠ .both
  simple : SimplePath (known db SearchOptions.default height) f.1 address f.2.1
  nonempty : f.2.1.path ≠ []
  short : f.2.1.path.length ≤ 3
  passes : ∀ a ∈ Search.between f.2.1, service (shown a) = false
  subject : service (shown address) = true → f.2.1.path.length ≤ 1
  seed : f.2.2 ∈ shown f.2.1.current ∧ f.2.2.isExposureSeed = true

/-- The addresses strictly between are one fewer than the transfers. -/
theorem between_length {rows : List Edge} {direction : Direction} {source : String} {n : Node}
    (h : SimplePath rows direction source n) : (Search.between n).length = n.path.length - 1 := by
  have hlength := hops_length h.hops
  rw [Search.between, List.length_dropLast, List.length_tail]
  omega

variable (labels : Labels)

def boundaryAt (next : String) : Bool := service (active labels address) || service (active labels next)

/-- The search as one over the tree of paths: it does not go on at a boundary. -/
def seedSearch : Search Finding where
  incident := incident db SearchOptions.default height
  blocked := boundaryAt address labels
  maxHops := 3
  emit d k := ((active labels k.current).filter Label.isExposureSeed).map fun l => (d, k, l)

def roots : List (Direction × Node) := [(.outgoing, Node.start address), (.incoming, Node.start address)]

variable {db address height labels}

theorem seedSearch_over :
    (seedSearch db address height labels).Over (known db SearchOptions.default height) where
  mem _ _ := mem_incident
  once a := incident_nodup a
  positions _ he _ hf h := known_position he hf h

/-- Where no boundary is passed, no service is, and a service is left by one transfer only. -/
theorem between_open {rows : List Edge} {direction : Direction} {n : Node}
    (h : SimplePath rows direction address n) :
    (∀ a ∈ Search.between n, boundaryAt address labels a = false) ↔
      (∀ a ∈ Search.between n, service (active labels a) = false) ∧
        (service (active labels address) = true → n.path.length ≤ 1) := by
  have hlength := between_length h
  constructor
  · intro hopen
    refine ⟨fun a ha => (Bool.or_eq_false_iff.mp (hopen a ha)).2, fun hservice => ?_⟩
    by_contra hlong
    obtain ⟨a, ha⟩ := List.exists_mem_of_length_pos (l := Search.between n) (by omega)
    rw [(Bool.or_eq_false_iff.mp (hopen a ha)).1] at hservice
    cases hservice
  · rintro ⟨hpasses, hsubject⟩ a ha
    refine Bool.or_eq_false_iff.mpr ⟨?_, hpasses a ha⟩
    by_contra hservice
    have hshort := hsubject (by simpa using hservice)
    have hpos := List.length_pos_of_mem ha
    omega

theorem mem_direction {d : Direction} (hd : d ≠ .both) {f : Finding} :
    f ∈ (seedSearch db address height labels).tree.all (d, Node.start address) ↔
      f.1 = d ∧ Exposure db (active labels) address height f := by
  rw [Search.mem_tree seedSearch_over (Nat.succ_pos 2)]
  obtain ⟨d', n, l⟩ := f
  constructor
  · rintro ⟨k, hk, hne, hshort, hopen, hmem⟩
    obtain ⟨l', hl', heq⟩ := List.mem_map.mp hmem
    cases heq
    obtain ⟨hpasses, hsubject⟩ := (between_open hk).mp hopen
    exact ⟨rfl, hd, hk, hne, hshort, hpasses, hsubject, List.mem_filter.mp hl'⟩
  · rintro ⟨rfl, h⟩
    refine ⟨n, h.simple, h.nonempty, h.short, (between_open h.simple).mpr ⟨h.passes, h.subject⟩, ?_⟩
    exact List.mem_map.mpr ⟨l, List.mem_filter.mpr h.seed, rfl⟩

/-- The two trees list the exposures under the labels that the search sees. -/
theorem mem_roots {f : Finding} :
    f ∈ (roots address).flatMap (seedSearch db address height labels).tree.all ↔
      Exposure db (active labels) address height f := by
  rw [roots, List.flatMap_cons, List.flatMap_cons, List.flatMap_nil, List.append_nil, List.mem_append,
    mem_direction (by decide), mem_direction (by decide)]
  constructor
  · rintro (⟨_, h⟩ | ⟨_, h⟩) <;> exact h
  · intro h
    cases hd : f.1 with
    | outgoing => exact Or.inl ⟨rfl, h⟩
    | incoming => exact Or.inr ⟨rfl, h⟩
    | both => exact absurd hd h.oneWay

theorem active_nodup (a : String) : (active labels a).Nodup := by
  have hrows : labels.rows.Nodup := List.Nodup.of_map _ labels.ids
  exact ((List.perm_insertionSort _ _).nodup_iff.mpr (hrows.filter _)).sublist (List.take_sublist _ _)

theorem roots_nodup : ((roots address).flatMap (seedSearch db address height labels).tree.all).Nodup := by
  have htraced := Search.tree_traced (s := seedSearch db address height labels) seedSearch_over
    (fun f : Finding => f.2.1.path)
    (fun d n f hf => by obtain ⟨l, _, rfl⟩ := List.mem_map.mp hf; rfl)
    (fun d n => ((active_nodup n.current).filter _).map fun l l' h => (Prod.mk.inj (Prod.mk.inj h).2).2)
  rw [roots, List.flatMap_cons, List.flatMap_cons, List.flatMap_nil, List.append_nil, List.nodup_append]
  refine ⟨htraced.nodup _, htraced.nodup _, fun f hf g hg heq => ?_⟩
  have hout := ((mem_direction (by decide)).mp hf).1
  have hin := ((mem_direction (by decide)).mp hg).1
  rw [heq, hin] at hout
  cases hout

end

/-! ## What the loops do -/

section
variable {F : FloatOps} {parse : String → Option ℚ} {digest : String → Bool → List String → String}
variable {db : Transfers} {labels : Labels} {address : String} {height at' : Nat}

/-- The row of a finding. -/
def rowOf (F : FloatOps) (parse : String → Option ℚ) (digest : String → Bool → List String → String)
    (labels : Labels) (address : String) (height at' : Nat) (f : Finding) : Row :=
  row F parse digest address height at' (boundaryAt address labels f.2.1.current) f.1 f.2.1 f.2.2

/-- The map holds what the query returns. -/
def Known (labels : Labels) (known : List (String × List Label)) : Prop :=
  ∀ a found, (a, found) ∈ known → found = active labels a

theorem labelsOf_some {known known' : List (String × List Label)} {next : String} {found : List Label}
    (h : Known labels known) (hof : labelsOf labels known next = some (found, known')) :
    found = active labels next ∧ Known labels known' := by
  unfold labelsOf at hof
  split at hof
  · rename_i old hlookup
    cases hof
    exact ⟨h next found (mem_of_lookup hlookup), h⟩
  · split at hof
    · cases hof
    · cases hof
      refine ⟨rfl, fun a found hmem => ?_⟩
      rcases List.mem_cons.mp hmem with heq | hmem
      · cases heq; rfl
      · exact h a found hmem

/-- From `s` to `s'` the search has looked at the given rows of a state. -/
def Visited (F : FloatOps) (parse : String → Option ℚ) (digest : String → Bool → List String → String)
    (db : Transfers) (labels : Labels) (address : String) (height at' : Nat) (direction : Direction)
    (n : Node) (rows : List Edge) (s s' : Searching) : Prop :=
  ∃ out kids, s'.results = s.results ++ out.map (rowOf F parse digest labels address height at') ∧
    s'.queue = s.queue ++ kids.map (Prod.mk direction) ∧ s'.cache = s.cache ∧ s'.states = s.states ∧
    Known labels s'.labels ∧
    (seedSearch db address height labels).Looked direction n rows s.truncated s'.truncated out kids

namespace Visited
variable {direction : Direction} {n : Node} {rows more : List Edge} {s s' s'' : Searching}

theorem append (h : Visited F parse digest db labels address height at' direction n rows s s')
    (h' : Visited F parse digest db labels address height at' direction n more s' s'') :
    Visited F parse digest db labels address height at' direction n (rows ++ more) s s'' := by
  obtain ⟨out, kids, hresults, hqueue, hcache, hstates, _, hlook⟩ := h
  obtain ⟨out', kids', hresults', hqueue', hcache', hstates', hknown, hlook'⟩ := h'
  refine ⟨out ++ out', kids ++ kids', ?_, ?_, hcache'.trans hcache, hstates'.trans hstates, hknown,
    hlook.append hlook'⟩
  · rw [hresults', hresults, List.map_append, List.append_assoc]
  · rw [hqueue', hqueue, List.map_append, List.append_assoc]

theorem same (hknown : Known labels s.labels) :
    Visited F parse digest db labels address height at' direction n [] s s :=
  ⟨[], [], (List.append_nil _).symm, (List.append_nil _).symm, rfl, rfl, hknown, Search.Looked.nil _ n _⟩

theorem skip {e : Edge} (hknown : Known labels s.labels) (hf : follow direction n e = none) :
    Visited F parse digest db labels address height at' direction n [e] s s :=
  ⟨[], [], (List.append_nil _).symm, (List.append_nil _).symm, rfl, rfl, hknown, Search.Looked.skip hf⟩

/-- A transfer left out with the flag set. -/
theorem drop (hknown : Known labels s.labels) (e : Edge) :
    Visited F parse digest db labels address height at' direction n [e] s { s with truncated := true } :=
  ⟨[], [], (List.append_nil _).symm, (List.append_nil _).symm, rfl, rfl, hknown,
    (Search.Looked.nil _ n _).cut (List.nil_sublist _)⟩

/-- A transfer whose seeds are reported and that is followed where no boundary stops it. -/
theorem onward {e : Edge} {k : Node} {known : List (String × List Label)} (hknown : Known labels known)
    (hf : follow direction n e = some k) :
    Visited F parse digest db labels address height at' direction n [e] s
      { s.report F parse digest address height at' known (boundaryAt address labels k.current) direction k
          (active labels k.current) with
        queue := s.queue ++ (if boundaryAt address labels k.current = false ∧ k.path.length < 3 then [k]
          else []).map (Prod.mk direction) } := by
  have htake : (seedSearch db address height labels).Looked direction n [e] s.truncated s.truncated _ _ :=
    Search.Looked.take hf
  refine ⟨_, _, ?_, rfl, rfl, rfl, hknown, htake⟩
  show _ = s.results ++ List.map _ (List.map _ _)
  rw [List.map_map]
  rfl

/-- The same where the state is not queued: the flag is set. -/
theorem report {e : Edge} {k : Node} {known : List (String × List Label)} (hknown : Known labels known)
    (hf : follow direction n e = some k) :
    Visited F parse digest db labels address height at' direction n [e] s
      { s.report F parse digest address height at' known (boundaryAt address labels k.current) direction k
          (active labels k.current) with truncated := true } := by
  have honward : Visited F parse digest db labels address height at' direction n [e] s _ := onward hknown hf
  obtain ⟨out, kids, hresults, _, hcache, hstates, hknown', hlook⟩ := honward
  exact ⟨out, [], hresults, (List.append_nil _).symm, hcache, hstates, hknown', hlook.drop⟩

end Visited

variable (F parse digest db labels address height at') in
theorem visit_visited {subjectService : Bool} (hsubject : subjectService = service (active labels address))
    (direction : Direction) (n : Node) (rows : List Edge) (s : Searching) (hknown : Known labels s.labels) :
    Visited F parse digest db labels address height at' direction n rows s
      (visit F parse digest labels address height at' subjectService direction n rows s) := by
  induction rows generalizing s with
  | nil => exact .same hknown
  | cons e rest ih =>
    unfold visit
    split
    · rename_i hf
      exact (Visited.skip hknown hf).append (ih s hknown)
    · rename_i k hf
      split
      · exact (Visited.drop hknown e).append (ih _ hknown)
      · rename_i found known hof
        obtain ⟨rfl, hknown'⟩ := labelsOf_some hknown hof
        have hboundary : (subjectService || service (active labels k.current)) =
            boundaryAt address labels k.current := by
          rw [hsubject]; rfl
        simp only [hboundary]
        have honward : Visited F parse digest db labels address height at' direction n [e] s _ :=
          .onward hknown' hf
        split
        · rename_i hgo
          split
          · rw [if_pos (by simpa using hgo)] at honward
            exact honward.append (ih _ hknown')
          · exact (Visited.report hknown' hf).append (ih _ hknown')
        · rename_i hstop
          rw [if_neg (by simpa using hstop), List.map_nil, List.append_nil] at honward
          exact honward.append (ih _ hknown')

/-! ## The whole search -/

/-- The search so far: what it found and what it still has to look at. -/
structure Searched (F : FloatOps) (parse : String → Option ℚ)
    (digest : String → Bool → List String → String) (db : Transfers) (labels : Labels) (address : String)
    (height at' : Nat) (s : Searching) : Prop where
  known : Known labels s.labels
  cached : Cached db SearchOptions.default height s.cache s.truncated
  tracks : ∃ found, s.results = found.map (rowOf F parse digest labels address height at') ∧
    Tracks (seedSearch db address height labels).tree (roots address) found s.queue s.truncated

namespace Searched
variable {s : Searching}

theorem start :
    Searched F parse digest db labels address height at' (Searching.start labels address) where
  known a found h := by cases List.mem_singleton.mp h; rfl
  cached := Cached.nil
  tracks := ⟨[], rfl, Tracks.start _⟩

theorem look {direction : Direction} {n : Node} {rest : List (Direction × Node)}
    (h : Searched F parse digest db labels address height at' s) (hqueue : s.queue = (direction, n) :: rest)
    (states : Nat) {rows : List Edge} {cache : List (String × List Edge)} {cut : Bool}
    (hfetch : fetch db SearchOptions.default height 100 s.cache n.current = (rows, cache, cut)) :
    Searched F parse digest db labels address height at' (visit F parse digest labels address height at'
      (service (active labels address)) direction n rows { s with
        queue := rest, states := states, cache := cache, truncated := s.truncated || cut }) := by
  obtain ⟨found, hfound, htracks⟩ := h.tracks
  obtain ⟨hcached, hpart, hwhole⟩ := fetch_cached h.cached hfetch
  obtain ⟨out, kids, hresults, hvqueue, hcache, _, hknown, hlook⟩ :=
    visit_visited F parse digest db labels address height at' rfl direction n rows { s with
        queue := rest, states := states, cache := cache, truncated := s.truncated || cut } h.known
  generalize visit F parse digest labels address height at' _ direction n rows _ = s' at *
  rw [hqueue] at htracks
  refine ⟨hknown, ?_, found ++ out, ?_, ?_⟩
  · rw [hcache]; exact hcached.flagged _ fun hf => (hlook.whole hf).1
  · rw [hresults, List.map_append, ← hfound]
  · rw [hvqueue]; exact Search.tracks_look htracks (hlook.of_rows hpart hwhole)

end Searched

theorem visit_states (subjectService : Bool) (direction : Direction) (n : Node) (rows : List Edge)
    (s : Searching) :
    (visit F parse digest labels address height at' subjectService direction n rows s).states = s.states := by
  induction rows generalizing s with
  | nil => rfl
  | cons e rest ih =>
    unfold visit
    split
    · exact ih s
    · split
      · exact ih _
      · simp only
        split
        · split
          · exact ih _
          · exact ih _
        · exact ih _

variable (F parse digest db labels address height at') in
/-- The search ends after at most 1001 rounds. -/
theorem search_some (subjectService : Bool) {fuel : Nat} {s : Searching} (hstates : s.states ≤ 1000)
    (hfuel : 1001 ≤ fuel + s.states) :
    ∃ s', search F parse digest db labels address height at' subjectService fuel s = some s' := by
  induction fuel generalizing s with
  | zero => omega
  | succ fuel ih =>
    unfold search
    split
    · exact ⟨s, rfl⟩
    · simp only
      split
      · exact ⟨_, rfl⟩
      · rename_i hgo
        simp only [not_or, Nat.not_lt] at hgo
        refine ih ?_ ?_
        · rw [visit_states]; exact hgo.1
        · rw [visit_states]; show 1001 ≤ fuel + (s.states + 1); omega

/-- What the search found are results of the trees, all of them where nothing was left out. -/
theorem search_found {fuel : Nat} {s s' : Searching}
    (h : Searched F parse digest db labels address height at' s)
    (hsearch : search F parse digest db labels address height at' (service (active labels address)) fuel s =
      some s') : ∃ found : List Finding, s'.results = found.map (rowOf F parse digest labels address height at') ∧
      found.Subperm ((roots address).flatMap (seedSearch db address height labels).tree.all) ∧
      (s'.truncated = false →
        found.Perm ((roots address).flatMap (seedSearch db address height labels).tree.all)) := by
  induction fuel generalizing s with
  | zero => cases hsearch
  | succ fuel ih =>
    unfold search at hsearch
    split at hsearch
    · rename_i hempty
      obtain rfl := Option.some.inj hsearch
      obtain ⟨found, hfound, htracks⟩ := h.tracks
      rw [hempty] at htracks
      refine ⟨found, hfound, htracks.results_subperm, fun hf => ?_⟩
      rw [hf] at htracks
      exact htracks.results_perm
    · rename_i direction n rest hqueue
      simp only at hsearch
      split at hsearch
      · -- a cut-off ends the search with the flag set
        obtain rfl := Option.some.inj hsearch
        obtain ⟨found, hfound, htracks⟩ := h.tracks
        exact ⟨found, hfound, htracks.results_subperm, fun hf => by cases hf⟩
      · exact ih (h.look hqueue _ rfl) hsearch

/-! ## The reply -/

/-- The rows are exposures under the labels that `shown` gives, none twice, and all of them unless
the reply is truncated. -/
def Faithful (F : FloatOps) (parse : String → Option ℚ) (digest : String → Bool → List String → String)
    (db : Transfers) (labels : Labels) (address : String) (height at' : Nat)
    (shown : String → List Label) (rows : List Row) (coverage : Coverage) : Prop :=
  ∃ found : List Finding, rows = found.map (rowOf F parse digest labels address height at') ∧ found.Nodup ∧
    (∀ f ∈ found, Exposure db shown address height f) ∧
    (coverage.truncated = false → ∀ f, Exposure db shown address height f → f ∈ found)

/-- A row tells its direction, path and label. -/
theorem rowOf_injective {f g : Finding} (hf : f.1 ≠ .both) (hg : g.1 ≠ .both)
    (h : rowOf F parse digest labels address height at' f = rowOf F parse digest labels address height at' g) :
    f = g := by
  obtain ⟨d, ⟨as, es⟩, l⟩ := f
  obtain ⟨d', ⟨bs, fs⟩, l'⟩ := g
  have hlabel : l = l' := congrArg Row.seedClaim h
  have haddresses : as = bs := congrArg Row.pathAddresses h
  have htransfers : es = fs := congrArg Row.transfers h
  have hdirection : (if d = .incoming then "RECEIVED_FROM_SEED" else "SENT_TO_SEED") =
      if d' = .incoming then "RECEIVED_FROM_SEED" else "SENT_TO_SEED" := congrArg Row.direction h
  have hd : d = d' := by
    cases d <;> cases d' <;> simp_all
  rw [hlabel, haddresses, htransfers, hd]

theorem take_of_results {found : List Finding} {results : List Row}
    (h : results.Perm (found.map (rowOf F parse digest labels address height at'))) (limit : Nat) :
    ∃ kept : List Finding, results.take limit = kept.map (rowOf F parse digest labels address height at') ∧
      kept.Subperm found ∧ (results.length ≤ limit → kept.Perm found) := by
  obtain ⟨other, hother, hperm⟩ :=
    (iff_of_eq (congrFun₂ (List.eq_map_comp_perm (rowOf F parse digest labels address height at')) results
      found)).mpr h
  refine ⟨other.take limit, ?_, (List.take_sublist _ _).subperm.trans hperm.subperm, fun hlength => ?_⟩
  · rw [List.map_take, ← hother]
  · rw [hother, List.length_map] at hlength
    rwa [List.take_of_length_le hlength]

variable (F parse digest db labels address height at') in
/-- The exposure search, for every database and all labels: it always ends, and it is right about
the labels that it sees. -/
theorem exposure_shown : ∃ rows coverage,
    exposure F parse digest db labels address height at' = .ok (rows, coverage) ∧
      Faithful F parse digest db labels address height at' (active labels) rows coverage := by
  obtain ⟨s, hs⟩ := search_some F parse digest db labels address height at' (service (active labels address))
    (s := Searching.start labels address) (Nat.zero_le 1000) (Nat.le_refl 1001)
  obtain ⟨found, hfound, hsub, hperm⟩ := search_found Searched.start hs
  have hsorted : (s.results.insertionSort fun a b => b.exposureScore ≤ a.exposureScore).Perm
      (found.map (rowOf F parse digest labels address height at')) :=
    hfound ▸ List.perm_insertionSort _ _
  obtain ⟨kept, hkept, hpart, hwhole⟩ := take_of_results hsorted 50
  have hexposure : exposure F parse digest db labels address height at' = .ok (reply s) := by
    unfold exposure
    rw [hs]
    rfl
  refine ⟨(reply s).1, (reply s).2, hexposure, kept, hkept, ?_, fun f hf => ?_, fun htruncated f hf => ?_⟩
  · obtain ⟨zs, hzs, hsublist⟩ := hpart.trans hsub
    exact hzs.nodup_iff.mp (roots_nodup.sublist hsublist)
  · exact mem_roots.mp ((hpart.trans hsub).subset hf)
  · obtain ⟨hflag, hfew⟩ := Bool.or_eq_false_iff.mp htruncated
    have hlength : (s.results.insertionSort fun a b => b.exposureScore ≤ a.exposureScore).length ≤ 50 := by
      rw [List.length_insertionSort]
      exact Nat.not_lt.mp (of_decide_eq_false hfew)
    exact (hwhole hlength).mem_iff.mpr ((hperm hflag).mem_iff.mpr (mem_roots.mpr hf))

end

/-! ## Labels beyond the first hundred -/

/-- No label that the query leaves out counts: every seed at the end of a path is among the first
hundred labels there, and no path to a seed that is shown passes, or leaves by more than one
transfer, an address with a service label behind its first hundred only. -/
structure Unhidden (db : Transfers) (labels : Labels) (address : String) (height : Nat) : Prop where
  seeds : ∀ f, Exposure db (labelled labels) address height f → f.2.2 ∈ active labels f.2.1.current
  services : ∀ f, Exposure db (active labels) address height f →
    (∀ a ∈ Search.between f.2.1, service (labelled labels a) = false) ∧
      (service (labelled labels address) = true → f.2.1.path.length ≤ 1)

section
variable {db : Transfers} {labels : Labels} {address : String} {height : Nat}

theorem active_sublist (a : String) : (active labels a).Sublist (labelled labels a) := List.take_sublist _ _

theorem service_active {a : String} (h : service (active labels a) = true) :
    service (labelled labels a) = true := by
  obtain ⟨l, hl, hservice⟩ := List.any_eq_true.mp h
  exact List.any_eq_true.mpr ⟨l, (active_sublist a).mem hl, hservice⟩

theorem service_labelled_false {a : String} (h : service (labelled labels a) = false) :
    service (active labels a) = false := by
  by_contra hactive
  rw [service_active (by simpa using hactive)] at h
  cases h

/-- With every label in view the search sees what there is, and only then. -/
theorem unhidden_iff : Unhidden db labels address height ↔ ∀ f,
    Exposure db (labelled labels) address height f ↔ Exposure db (active labels) address height f := by
  constructor
  · intro h f
    constructor
    · intro hf
      refine { hf with
        passes := fun a ha => service_labelled_false (hf.passes a ha)
        subject := fun hservice => hf.subject (service_active hservice)
        seed := ⟨h.seeds f hf, hf.seed.2⟩ }
    · intro hf
      obtain ⟨hpasses, hsubject⟩ := h.services f hf
      exact { hf with
        passes := hpasses
        subject := hsubject
        seed := ⟨(active_sublist _).mem hf.seed.1, hf.seed.2⟩ }
  · intro h
    exact ⟨fun f hf => ((h f).mp hf).seed.1, fun f hf => ⟨((h f).mpr hf).passes, ((h f).mpr hf).subject⟩⟩

/-- Addresses of at most a hundred active labels hide none. -/
theorem unhidden_of_few (h : ∀ a, (labelled labels a).length ≤ 100) :
    Unhidden db labels address height := by
  refine unhidden_iff.mpr fun f => ?_
  have hall : active labels = labelled labels := funext fun a => List.take_of_length_le (h a)
  rw [hall]

variable (F : FloatOps) (parse : String → Option ℚ) (digest : String → Bool → List String → String)
variable (db labels address height) (at' : Nat)

/-- The reply is right about all labels when none is hidden; an untruncated reply only then. -/
theorem exposure_faithful_iff : ∃ rows coverage,
    exposure F parse digest db labels address height at' = .ok (rows, coverage) ∧
      (Unhidden db labels address height →
        Faithful F parse digest db labels address height at' (labelled labels) rows coverage) ∧
      (coverage.truncated = false →
        (Faithful F parse digest db labels address height at' (labelled labels) rows coverage ↔
          Unhidden db labels address height)) := by
  obtain ⟨rows, coverage, hreply, found, hrows, hnodup, hsound, hcomplete⟩ :=
    exposure_shown F parse digest db labels address height at'
  have henough : Unhidden db labels address height →
      Faithful F parse digest db labels address height at' (labelled labels) rows coverage := fun h =>
    ⟨found, hrows, hnodup, fun f hf => (unhidden_iff.mp h f).mpr (hsound f hf), fun ht f hf =>
      hcomplete ht f ((unhidden_iff.mp h f).mp hf)⟩
  refine ⟨rows, coverage, hreply, henough, fun htruncated => ⟨fun hfaithful => ?_, henough⟩⟩
  obtain ⟨other, hother, _, hsound', hcomplete'⟩ := hfaithful
  -- the rows tell which findings they come from
  have hsame : ∀ f, f.1 ≠ .both → (f ∈ other ↔ f ∈ found) := by
    intro f hd
    have hmap := hother.symm.trans hrows
    constructor
    · intro hf
      have hmem := List.mem_map_of_mem (f := rowOf F parse digest labels address height at') hf
      rw [hmap] at hmem
      obtain ⟨g, hg, heq⟩ := List.mem_map.mp hmem
      exact rowOf_injective (hsound g hg).oneWay hd heq ▸ hg
    · intro hf
      have hmem := List.mem_map_of_mem (f := rowOf F parse digest labels address height at') hf
      rw [← hmap] at hmem
      obtain ⟨g, hg, heq⟩ := List.mem_map.mp hmem
      exact rowOf_injective (hsound' g hg).oneWay hd heq ▸ hg
  refine unhidden_iff.mpr fun f => ⟨fun hf => ?_, fun hf => ?_⟩
  · exact hsound f ((hsame f hf.oneWay).mp (hcomplete' htruncated f hf))
  · exact hsound' f ((hsame f hf.oneWay).mpr (hcomplete htruncated f hf))

end

/-! A hundred labels that are no seeds hide the one that is. -/

def sampleEdge : Edge :=
  ⟨"t1", BSC_NETWORK_ID, "x1", 1, 1000, 0, 0, "a", "b", "eip155:56/slip44:714", "", "5", "native"⟩

def sampleTransfer : Transfers := ⟨[sampleEdge], by decide, by decide⟩

/-- An approved label of the address `b`. -/
def sampleLabel (claimId : String) (confidence : ℚ) (riskLevel : Nat) (isExposureSeed : Bool)
    (seedCategory : String) : Label :=
  ⟨BSC_NETWORK_ID, claimId, "label", "b", "e", "Entity", "scam", "wallet", confidence, riskLevel,
    isExposureSeed, seedCategory, "case", "case:1", ["tx:1"], "approved", "analyst", 1, 1⟩

def sampleSeed : Label := sampleLabel "seed" (1 / 2) 90 true "scam"

def sampleLabels : Labels where
  rows := (List.range 100).map (fun i : Nat => sampleLabel i.repr (1 - i / 200) 0 false "") ++ [sampleSeed]
  ids := by
    rw [List.map_append, List.map_map, List.nodup_append]
    refine ⟨List.nodup_range.map fun i j h => ?_, by simp, fun k hk k' hk' heq => ?_⟩
    · exact AmlReal.Foundations.Json.decimal_inj (Prod.mk.inj h).2
    · rw [List.mem_singleton.mp hk'] at heq
      obtain ⟨i, hi, rfl⟩ := List.mem_map.mp hk
      have hfresh : "seed" ∉ (List.range 100).map Nat.repr := by decide +kernel
      exact hfresh (List.mem_map.mpr ⟨i, hi, (Prod.mk.inj heq).2⟩)

theorem sample_exposure : Exposure sampleTransfer (labelled sampleLabels) "a" 9
    (.outgoing, ⟨["a", "b"], [sampleEdge]⟩, sampleSeed) where
  oneWay := by decide
  simple := (SimplePath.start _ _ "a").extend (e := sampleEdge) (by decide +kernel) (by decide) (by decide +kernel)
  nonempty := by decide
  short := by decide
  passes := by simp [Search.between]
  subject _ := Nat.le_refl 1
  seed := by
    refine ⟨(List.mem_insertionSort _).mpr (List.mem_filter.mpr ⟨?_, by decide⟩), rfl⟩
    exact List.mem_append_right _ (List.mem_singleton_self _)

theorem hidden_seed_missed : ∃ rows coverage,
    exposure FloatOps.rational (fun s => s.toNat?.map Nat.cast) (fun _ _ _ => "") sampleTransfer sampleLabels
      "a" 9 2000 = .ok (rows, coverage) ∧
    ¬ Faithful FloatOps.rational (fun s => s.toNat?.map Nat.cast) (fun _ _ _ => "") sampleTransfer
      sampleLabels "a" 9 2000 (labelled sampleLabels) rows coverage := by
  have hreply : ((exposure FloatOps.rational (fun s => s.toNat?.map Nat.cast) (fun _ _ _ => "")
      sampleTransfer sampleLabels "a" 9 2000).toOption.map fun r => (r.1.length, r.2.truncated)) =
      some (0, false) := by decide +kernel
  obtain ⟨⟨rows, coverage⟩, hr, hshape⟩ := Option.map_eq_some_iff.mp hreply
  obtain ⟨hlength, htruncated⟩ := Prod.mk.inj hshape
  obtain rfl : rows = [] := List.eq_nil_of_length_eq_zero hlength
  refine ⟨[], coverage, ?_, ?_⟩
  · have hok := ok_get (Option.isSome_iff_exists.mpr ⟨_, hr⟩)
    rw [hok]
    simp only [hr, Option.get_some]
  · rintro ⟨found, hfound, _, _, hcomplete⟩
    have hmem := hcomplete htruncated _ sample_exposure
    rw [List.map_eq_nil_iff.mp hfound.symm] at hmem
    cases hmem

end AmlReal.Bsc.ExposureSearch
