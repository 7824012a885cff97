import AmlReal.Ethereum.ExposureCoverage

/-! # What a stored exposure path says

A path row carries what its next extension needs: its end, its asset, the least
share and weight so far and the time of its last relationship. `Built` says what
these stand for, and a step keeps it as long as the step goes with time. -/

namespace AmlReal.Ethereum.ExposurePaths
open AmlReal.Foundations AmlReal.Foundations.LimitBy AmlReal.Ethereum.Exposure

/-! ## Sound paths -/

/-- The relationships lead from one address to another. -/
def Leads : String → List Relationship → String → Prop
  | start, [], finish => start = finish
  | start, e :: rest, finish => e.fromAddress = start ∧ Leads e.toAddress rest finish

/-- The relationships of a path, listed from the seed, in the order of the funds. -/
def inOrder : ExposureDirection → List Relationship → List Relationship
  | .receivedFromSeed, listed => listed
  | .sentToSeed, listed => listed.reverse

def Connects (seed : String) (listed : List Relationship) (subject : String) :
    ExposureDirection → Prop
  | .receivedFromSeed => Leads seed (inOrder .receivedFromSeed listed) subject
  | .sentToSeed => Leads subject (inOrder .sentToSeed listed) seed

/-- A relationship at `next` may be listed after one at `last`. -/
def Follows : ExposureDirection → Nat → Nat → Prop
  | .receivedFromSeed, last, next => last ≤ next
  | .sentToSeed, last, next => next ≤ last

def Chronological (direction : ExposureDirection) (listed : List Relationship) : Prop :=
  (inOrder direction listed).IsChain fun a b => a.blockTimestampUnixMs ≤ b.blockTimestampUnixMs

section
variable {α : Type} [Field α] [LinearOrder α]

/-- The part of a relationship in what its address sent, or received, of the asset. -/
def share (tables : Tables) (direction : ExposureDirection) (row : Relationship) : α :=
  (row.amount : α) / ((outgoing direction tables.relationships row).map fun o => (o.amount : α)).sum

variable (half : HalfLife α) (config : Config) (options : ExposureOptions α) (tables : Tables)

/-- The relationships explain the path row and its score. -/
structure Sound (direction : ExposureDirection) (path : ExposurePath α) (listed : List Relationship) :
    Prop where
  ids : listed.map Relationship.relationshipId = path.relationshipIds
  canonical : ∀ e ∈ listed, e ∈ tables.relationships
  length : listed.length = path.hopCount
  asset : ∀ e ∈ listed, e.assetId = path.assetId
  connects : Connects path.seedAddress listed path.subjectAddress direction
  addresses : path.pathAddresses = path.seedAddress :: listed.map direction.edgeTo
  simple : path.pathAddresses.Nodup
  boundary : ∀ a ∈ path.pathAddresses.tail.dropLast,
    a ∉ (serviceBoundaryAddresses tables).map ServiceBoundary.address
  chronological : Chronological direction listed
  seed : ∃ entity ∈ tables.entities, entity.isExposureSeed = true ∧
    entity.address = path.seedAddress ∧ entity.riskLevel = path.seedRiskLevel
  least_share : IsLeast {s | ∃ e ∈ listed, s = share tables direction e} path.amountShare
  least_weight : IsLeast {w | ∃ e ∈ listed, w = timeWeight half config options e} path.timeWeight
  score : path.exposureScore = (path.seedRiskLevel : α) / 100 * options.hopDecay ^ path.hopCount *
    path.amountShare * path.timeWeight
  bounds : 0 ≤ path.exposureScore ∧ path.exposureScore ≤ 1

/-- What a path row and the relationships behind it keep from hop to hop. -/
structure Built (direction : ExposureDirection) (path : ExposurePath α) (listed : List Relationship) :
    Prop where
  ids : listed.map Relationship.relationshipId = path.relationshipIds
  canonical : ∀ e ∈ listed, e ∈ tables.relationships
  length : listed.length = path.hopCount
  asset : ∀ e ∈ listed, e.assetId = path.assetId
  unset : listed = [] → path.assetId = ""
  connects : Connects path.seedAddress listed path.subjectAddress direction
  addresses : path.pathAddresses = path.seedAddress :: listed.map direction.edgeTo
  simple : path.pathAddresses.Nodup
  boundary : ∀ a ∈ (listed.map direction.edgeTo).dropLast,
    a ∉ (serviceBoundaryAddresses tables).map ServiceBoundary.address
  chronological : Chronological direction listed
  last : ∀ e ∈ listed.getLast?,
    path.lastTransferUnixMs = e.blockTimestampUnixMs ∧ path.subjectAddress = direction.edgeTo e
  seed : ∃ entity ∈ tables.entities, entity.isExposureSeed = true ∧
    entity.address = path.seedAddress ∧ entity.riskLevel = path.seedRiskLevel
  share : path.amountShare = (listed.map (share tables direction)).foldr min 1
  weight : path.timeWeight = (listed.map (timeWeight half config options)).foldr min 1
  score : path.exposureScore = (path.seedRiskLevel : α) / 100 * options.hopDecay ^ path.hopCount *
    path.amountShare * path.timeWeight

/-- The edge of an extension is not out of time with the path before it. -/
def InTime (direction : ExposureDirection) (e : Extension α) : Prop :=
  e.path.hopCount = 0 ∨
    Follows direction e.path.lastTransferUnixMs e.edge.relationship.blockTimestampUnixMs

end

/-! ## One more relationship -/

theorem leads_concat {start finish : String} {listed : List Relationship} {e : Relationship}
    (h : Leads start listed e.fromAddress) (hto : e.toAddress = finish) :
    Leads start (listed ++ [e]) finish := by
  induction listed generalizing start with
  | nil => exact ⟨h.symm, hto⟩
  | cons first rest ih => exact ⟨h.1, ih h.2⟩

theorem connects_concat {direction : ExposureDirection} {seed subject : String}
    {listed : List Relationship} {e : Relationship} (h : Connects seed listed subject direction)
    (hfrom : subject = direction.edgeFrom e) :
    Connects seed (listed ++ [e]) (direction.edgeTo e) direction := by
  cases direction with
  | receivedFromSeed =>
    have hleads : Leads seed listed subject := h
    rw [hfrom] at hleads
    exact leads_concat hleads rfl
  | sentToSeed =>
    show Leads e.fromAddress (listed ++ [e]).reverse seed
    have hleads : Leads subject listed.reverse seed := h
    rw [hfrom] at hleads
    rw [List.reverse_append]
    exact ⟨rfl, hleads⟩

theorem chronological_concat {direction : ExposureDirection} {listed : List Relationship}
    {e : Relationship} (h : Chronological direction listed)
    (htime : ∀ last ∈ listed.getLast?,
      Follows direction last.blockTimestampUnixMs e.blockTimestampUnixMs) :
    Chronological direction (listed ++ [e]) := by
  cases direction with
  | receivedFromSeed =>
    refine List.isChain_append.mpr ⟨h, List.IsChain.singleton e, ?_⟩
    intro last hlast next hnext
    obtain rfl : e = next := by simpa using hnext
    exact htime last hlast
  | sentToSeed =>
    show ((listed ++ [e]).reverse).IsChain _
    rw [List.reverse_append]
    refine List.isChain_cons.mpr ⟨?_, h⟩
    intro last hlast
    exact htime last (by simpa using hlast)

section
variable {α : Type} [LinearOrder α]

theorem foldr_min_concat (values : List α) (x bound : α) :
    (values ++ [x]).foldr min bound = min (values.foldr min bound) x := by
  induction values with
  | nil => exact min_comm x bound
  | cons y values ih =>
    rw [List.cons_append, List.foldr_cons, ih, List.foldr_cons, min_assoc]

/-- The fold from a bound of the values is their least. -/
theorem isLeast_foldr_min {values : List α} {bound : α} (hne : values ≠ [])
    (hbound : ∀ x ∈ values, x ≤ bound) : IsLeast {x | x ∈ values} (values.foldr min bound) := by
  induction values with
  | nil => exact absurd rfl hne
  | cons y values ih =>
    have hy := hbound y (List.mem_cons_self ..)
    by_cases hnil : values = []
    · subst hnil
      refine ⟨by simp [min_eq_left hy], ?_⟩
      intro x hx
      obtain rfl : x = y := by simpa using hx
      exact min_le_left ..
    · obtain ⟨hmem, hleast⟩ := ih hnil fun x hx => hbound x (List.mem_cons_of_mem _ hx)
      refine ⟨?_, ?_⟩
      · rcases min_choice y (values.foldr min bound) with hmin | hmin
        · exact List.mem_cons.mpr (Or.inl hmin)
        · exact List.mem_cons.mpr (Or.inr (by rw [List.foldr_cons, hmin]; exact hmem))
      · intro x hx
        rcases List.mem_cons.mp hx with rfl | hx
        · exact min_le_left ..
        · exact (min_le_right ..).trans (hleast hx)

end

/-! ## What the queries return -/

section
variable {α : Type} [Field α] [LinearOrder α] {half : HalfLife α} {config : Config}
  {options : ExposureOptions α} {tables : Tables} {direction : ExposureDirection}

theorem validate_ok (h : options.validate = .ok options) :
    0 < options.hopDecay ∧ options.hopDecay ≤ 1 ∧ 0 < options.timeHalfLifeDays := by
  unfold ExposureOptions.validate at h
  obtain ⟨_, _, h⟩ := Checks.bind_ok h
  obtain ⟨_, hdecay, h⟩ := Checks.bind_ok h
  obtain ⟨_, hlife, _⟩ := Checks.bind_ok h
  exact ⟨(Checks.ensure_ok hdecay).1, (Checks.ensure_ok hdecay).2, Checks.ensure_ok hlife⟩

theorem ExposureDirection.edgeTo_ne (direction : ExposureDirection) (row : Relationship) :
    direction.edgeTo row ≠ "" := by
  cases direction with
  | receivedFromSeed => exact row.to_ne
  | sentToSeed => exact row.from_ne

/-- An address without a service joins empty columns. -/
theorem not_service {address : String} (hne : address ≠ "")
    (h : (anyService tables address).address = "") :
    address ∉ (serviceBoundaryAddresses tables).map ServiceBoundary.address := by
  intro hmem
  obtain ⟨row, hrow, rfl⟩ := List.mem_map.mp hmem
  unfold anyService at h
  cases hfind : (serviceBoundaryAddresses tables).find? fun other => other.address = row.address with
  | none =>
    have hnot := List.find?_eq_none.mp hfind row hrow
    exact hnot (by simp)
  | some other =>
    rw [hfind] at h
    have hsame : other.address = row.address := by simpa using List.find?_some hfind
    exact hne (hsame.symm.trans h)

theorem built_seed {path : ExposurePath α} (h : path ∈ seedPaths config tables) :
    Built half config options tables direction path [] := by
  obtain ⟨entity, hentity, rfl⟩ := List.mem_map.mp h
  obtain ⟨hmem, hseed⟩ := List.mem_filter.mp hentity
  simp only [decide_eq_true_eq] at hseed
  refine ⟨rfl, by simp, rfl, by simp, fun _ => rfl, ?_, rfl, by simp, by simp, ?_, by simp,
    ⟨entity, hmem, hseed.1, rfl, rfl⟩, rfl, rfl, by simp⟩
  · cases direction with
    | receivedFromSeed => rfl
    | sentToSeed => rfl
  · cases direction with
    | receivedFromSeed => exact List.IsChain.nil
    | sentToSeed => exact List.IsChain.nil

theorem mem_extensions {paths : List (ExposurePath α)} {previousHop : Nat} {e : Extension α}
    (h : e ∈ extensions tables paths previousHop direction) :
    e.path ∈ paths ∧ e.edge ∈ edges tables paths previousHop direction ∧
      admissible tables previousHop direction e.path e.edge = true := by
  obtain ⟨p, hp, he⟩ := List.mem_flatMap.mp h
  obtain ⟨edge, hedge, rfl⟩ := List.mem_map.mp he
  obtain ⟨hmem, hadmissible⟩ := List.mem_filter.mp hedge
  exact ⟨hp, hmem, hadmissible⟩

/-- A row that a hop inserts is an extension that the limit can keep. -/
theorem mem_selected {paths : List (ExposurePath α)} {hop : Nat}
    {arrange : Arrangement (Extension α)} {e : Extension α}
    (h : e ∈ selected options tables arrange paths hop direction) :
    e ∈ extensions tables paths (hop - 1) direction ∧
      ahead Extension.group Extension.rank (extensions tables paths (hop - 1) direction) e <
        options.maxPathsPerSubject := by
  have hordered : Ordered Extension.rank (extensions tables paths (hop - 1) direction) _ :=
    ordered_insertionSort (arrange.perm _)
  exact ⟨(limit_cut_perm_of hordered).mem_iff.mp (List.mem_append_left _ h), hordered.ahead_lt h⟩

end

/-! ## Shares and weights -/

section
variable {α : Type} [Field α] [LinearOrder α] [IsStrictOrderedRing α]
  {half : HalfLife α} {config : Config} {options : ExposureOptions α} {tables : Tables}
  {direction : ExposureDirection}

theorem amount_le_sum {rows : List Relationship} {row : Relationship} (h : row ∈ rows) :
    (row.amount : α) ≤ (rows.map fun o => (o.amount : α)).sum := by
  have hsum : (rows.map fun o => (o.amount : α)).sum = ((rows.map Relationship.amount).sum : Nat) := by
    rw [Nat.cast_list_sum, List.map_map]
    rfl
  rw [hsum]
  exact Nat.cast_le.mpr (List.le_sum_of_mem (List.mem_map_of_mem h))

theorem share_mem {row : Relationship} (h : row ∈ tables.relationships) :
    (0 : α) ≤ share tables direction row ∧ share tables direction row ≤ (1 : α) := by
  have hpos : (0 : α) < row.amount := Nat.cast_pos.mpr row.amount_pos
  have hle : (row.amount : α) ≤
      ((outgoing direction tables.relationships row).map fun o => (o.amount : α)).sum :=
    amount_le_sum (List.mem_filter.mpr ⟨h, by simp⟩)
  have hsum := hpos.trans_le hle
  exact ⟨div_nonneg hpos.le hsum.le, (div_le_one hsum).mpr hle⟩

/-- The window over the edges of a hop is the window over all relationships. -/
theorem edge_of_edges {paths : List (ExposurePath α)} {previousHop : Nat} {edge : Edge α}
    (h : edge ∈ edges tables paths previousHop direction) :
    edge.relationship ∈ tables.relationships ∧
      edge.edgeShare = share tables direction edge.relationship := by
  obtain ⟨row, hrow, rfl⟩ := List.mem_map.mp h
  obtain ⟨hcanonical, hsubject⟩ := List.mem_filter.mp hrow
  refine ⟨hcanonical, ?_⟩
  have hwindow : outgoing direction (tables.relationships.filter fun row =>
      direction.edgeFrom row ∈ (paths.filter fun p => p.hopCount = previousHop).map
        ExposurePath.subjectAddress) row = outgoing direction tables.relationships row := by
    rw [outgoing, outgoing, List.filter_filter]
    refine List.filter_congr fun other _ => ?_
    simp only [decide_eq_true_eq] at hsubject
    by_cases hsame : direction.edgeFrom other = direction.edgeFrom row
    · simp [hsame, hsubject]
    · simp [hsame]
  show min 1 ((row.amount : α) / _) = (row.amount : α) / _
  rw [hwindow]
  exact min_eq_right (share_mem hcanonical).2

theorem weight_mem (hlife : 0 < options.timeHalfLifeDays) (row : Relationship) :
    0 < timeWeight half config options row ∧ timeWeight half config options row ≤ 1 := by
  have hage : 0 ≤ max 0 (((config.createdAt : α) - (row.blockTimestampUnixMs : α)) / 86400000) /
      options.timeHalfLifeDays := div_nonneg (le_max_left ..) hlife.le
  exact ⟨half.weight_pos _ hage, half.weight_le _ hage⟩

theorem foldr_min_mem {values : List α} (h : ∀ x ∈ values, 0 ≤ x ∧ x ≤ 1) :
    0 ≤ values.foldr min 1 ∧ values.foldr min 1 ≤ 1 := by
  induction values with
  | nil => exact ⟨zero_le_one, le_refl _⟩
  | cons x values ih =>
    obtain ⟨hpos, hle⟩ := ih fun y hy => h y (List.mem_cons_of_mem _ hy)
    exact ⟨le_min (h x (List.mem_cons_self ..)).1 hpos, (min_le_right ..).trans hle⟩

/-- What is built explains its row, once it has a relationship. -/
theorem sound_of_built {path : ExposurePath α} {listed : List Relationship}
    (h : Built half config options tables direction path listed) (hne : listed ≠ [])
    (hvalid : options.validate = .ok options) :
    Sound half config options tables direction path listed := by
  obtain ⟨hdecay, hdecay', hlife⟩ := validate_ok hvalid
  have hshares : ∀ s ∈ listed.map (share (α := α) tables direction), 0 ≤ s ∧ s ≤ 1 := by
    intro s hs
    obtain ⟨e, he, rfl⟩ := List.mem_map.mp hs
    exact share_mem (h.canonical e he)
  have hweights : ∀ w ∈ listed.map (timeWeight half config options), 0 ≤ w ∧ w ≤ 1 := by
    intro w hw
    obtain ⟨e, _, rfl⟩ := List.mem_map.mp hw
    exact ⟨(weight_mem hlife e).1.le, (weight_mem hlife e).2⟩
  have hset : ∀ f : Relationship → α, {x | ∃ e ∈ listed, x = f e} = {x | x ∈ listed.map f} := by
    intro f
    ext x
    simp [eq_comm]
  refine ⟨h.ids, h.canonical, h.length, h.asset, h.connects, h.addresses, h.simple, ?_,
    h.chronological, h.seed, ?_, ?_, h.score, ?_⟩
  · intro a ha
    rw [h.addresses, List.tail_cons] at ha
    exact h.boundary a ha
  · rw [h.share, hset]
    exact isLeast_foldr_min (by simpa using hne) fun s hs => (hshares s hs).2
  · rw [h.weight, hset]
    exact isLeast_foldr_min (by simpa using hne) fun w hw => (hweights w hw).2
  · obtain ⟨hshare, hshare'⟩ := foldr_min_mem hshares
    obtain ⟨hweight, hweight'⟩ := foldr_min_mem hweights
    rw [← h.share] at hshare hshare'
    rw [← h.weight] at hweight hweight'
    obtain ⟨entity, _, _, _, hlevel⟩ := h.seed
    have hrisk : (path.seedRiskLevel : α) ≤ 100 := by
      rw [← hlevel]
      exact_mod_cast entity.risk_le
    have hrisk' : (0 : α) ≤ (path.seedRiskLevel : α) / 100 := by positivity
    have hbase : (path.seedRiskLevel : α) / 100 ≤ 1 := (div_le_one (by norm_num)).mpr hrisk
    have hpower : 0 ≤ options.hopDecay ^ path.hopCount := pow_nonneg hdecay.le _
    have hpower' : options.hopDecay ^ path.hopCount ≤ 1 := pow_le_one₀ hdecay.le hdecay'
    rw [h.score]
    refine ⟨by positivity, ?_⟩
    calc (path.seedRiskLevel : α) / 100 * options.hopDecay ^ path.hopCount * path.amountShare *
        path.timeWeight ≤ 1 * 1 * 1 * 1 := by gcongr
      _ = 1 := by ring

/-! ## Steps -/

theorem built_row {paths : List (ExposurePath α)} {hop : Nat} {e : Extension α}
    {listed : List Relationship} (hhop : 1 ≤ hop)
    (he : e ∈ extensions tables paths (hop - 1) direction)
    (h : Built half config options tables direction e.path listed) (htime : InTime direction e) :
    Built half config options tables direction (e.row half config options tables hop direction)
      (listed ++ [e.edge.relationship]) := by
  obtain ⟨_, hedge, hadmissible⟩ := mem_extensions he
  obtain ⟨hcanonical, hshare⟩ := edge_of_edges hedge
  simp only [admissible, decide_eq_true_eq] at hadmissible
  obtain ⟨hprevious, _, hend, hasset, hnew, hboundary⟩ := hadmissible
  have hlength : listed.length + 1 = hop := by
    rw [h.length, hprevious]
    omega
  have hassets : (e.row half config options tables hop direction).assetId =
      e.edge.relationship.assetId := by
    show (if e.path.assetId = "" then _ else _) = _
    split
    · rfl
    · rename_i hset
      exact hasset.resolve_left hset
  constructor
  · show _ = e.path.relationshipIds ++ [e.edge.relationship.relationshipId]
    rw [List.map_append, h.ids]
    rfl
  · intro row hrow
    rcases List.mem_append.mp hrow with hrow | hrow
    · exact h.canonical row hrow
    · obtain rfl := List.mem_singleton.mp hrow
      exact hcanonical
  · rw [List.length_append, List.length_singleton, hlength]
    rfl
  · intro row hrow
    rw [hassets]
    rcases List.mem_append.mp hrow with hrow | hrow
    · -- a path with relationships has set its asset
      have hset : e.path.assetId ≠ "" := by
        rw [← h.asset row hrow]
        exact row.asset_ne
      rw [h.asset row hrow]
      exact hasset.resolve_left hset
    · obtain rfl := List.mem_singleton.mp hrow
      rfl
  · intro hnil
    exact absurd hnil (by simp)
  · exact connects_concat h.connects hend
  · show e.path.pathAddresses ++ [direction.edgeTo e.edge.relationship] = _
    rw [h.addresses, List.map_append]
    rfl
  · show (e.path.pathAddresses ++ [direction.edgeTo e.edge.relationship]).Nodup
    refine List.nodup_append.mpr ⟨h.simple, List.nodup_singleton _, ?_⟩
    rintro a ha b hb rfl
    obtain rfl := List.mem_singleton.mp hb
    exact hnew ha
  · intro a ha
    rw [List.map_append, List.map_singleton, List.dropLast_concat] at ha
    -- the address is further inside, or the end that the step has passed
    rcases List.eq_nil_or_concat' listed with rfl | ⟨before, last, rfl⟩
    · cases ha
    · have hlast := h.last last (by simp)
      rw [List.map_append, List.map_singleton] at ha
      rcases List.mem_append.mp ha with ha | ha
      · refine h.boundary a ?_
        rwa [List.map_append, List.map_singleton, List.dropLast_concat]
      · obtain rfl := List.mem_singleton.mp ha
        refine not_service (ExposureDirection.edgeTo_ne direction last) ?_
        rw [← hlast.2]
        refine hboundary.resolve_left fun hzero => ?_
        simp only [List.length_append, List.length_singleton] at hlength
        omega
  · refine chronological_concat h.chronological fun last hlast => ?_
    have hcarried := (h.last last hlast).1
    rcases htime with hzero | htime
    · rw [← h.length, List.length_eq_zero_iff] at hzero
      rw [hzero] at hlast
      cases hlast
    · rw [hcarried] at htime
      exact htime
  · intro last hlast
    obtain rfl : e.edge.relationship = last := by simpa using hlast
    exact ⟨rfl, rfl⟩
  · exact h.seed
  · show min e.path.amountShare e.edge.edgeShare = _
    rw [List.map_append, List.map_singleton, foldr_min_concat, h.share, hshare]
  · show min e.path.timeWeight (timeWeight half config options e.edge.relationship) = _
    rw [List.map_append, List.map_singleton, foldr_min_concat, h.weight]
  · rfl

/-! ## Runs -/

/-- What a row of any direction stands for. -/
def Stored (half : HalfLife α) (config : Config) (options : ExposureOptions α) (tables : Tables)
    (path : ExposurePath α) : Prop :=
  (path.direction = .seed ∧ path ∈ seedPaths config tables) ∨
    ∃ direction listed, path.direction = .along direction ∧ listed ≠ [] ∧
      Built half config options tables direction path listed

/-- Every extension that a hop may insert is in time. -/
def HopInTime (options : ExposureOptions α) (tables : Tables) (paths : List (ExposurePath α))
    (hop : Nat) (direction : ExposureDirection) : Prop :=
  ∀ e ∈ extensions tables paths (hop - 1) direction,
    ahead Extension.group Extension.rank (extensions tables paths (hop - 1) direction) e <
      options.maxPathsPerSubject → InTime direction e

theorem stored_expandHop {paths : List (ExposurePath α)} {hop : Nat}
    {arrange : Arrangement (Extension α)} (hhop : 1 ≤ hop)
    (h : ∀ path ∈ paths, Stored half config options tables path)
    (htime : HopInTime options tables paths hop direction) :
    ∀ row ∈ expandHop half config options tables arrange paths hop direction,
      Stored half config options tables row := by
  intro row hrow
  obtain ⟨e, he, rfl⟩ := List.mem_map.mp hrow
  obtain ⟨hextension, hahead⟩ := mem_selected he
  obtain ⟨hpath, _, hadmissible⟩ := mem_extensions hextension
  simp only [admissible, decide_eq_true_eq] at hadmissible
  obtain ⟨_, hdirection, _⟩ := hadmissible
  have hbuilt : ∃ listed, Built half config options tables direction e.path listed := by
    rcases h e.path hpath with ⟨_, hseed⟩ | ⟨other, listed, hother, _, hbuilt⟩
    · exact ⟨[], built_seed hseed⟩
    · rcases hdirection with hseed | halong
      · rw [hother] at hseed
        cases hseed
      · rw [hother] at halong
        obtain rfl := PathDirection.along.inj halong
        exact ⟨listed, hbuilt⟩
  obtain ⟨listed, hbuilt⟩ := hbuilt
  exact Or.inr ⟨direction, _, rfl, by simp, built_row hhop hextension hbuilt (htime e hextension hahead)⟩

section
variable {arrange : Nat → ExposureDirection → Arrangement (Extension α)}

/-- Every step of a run so far was in time where it started. -/
def RunInTime (half : HalfLife α) (config : Config) (options : ExposureOptions α) (tables : Tables)
    (arrange : Nat → ExposureDirection → Arrangement (Extension α))
    (steps : List (Nat × ExposureDirection)) : Prop :=
  ∀ before hop direction after, steps = before ++ (hop, direction) :: after →
    HopInTime options tables
      (expandAll half config options tables arrange (seedPaths config tables) before) hop direction

theorem expandAll_concat (paths : List (ExposurePath α)) (steps : List (Nat × ExposureDirection))
    (hop : Nat) (direction : ExposureDirection) :
    expandAll half config options tables arrange paths (steps ++ [(hop, direction)]) =
      expandAll half config options tables arrange paths steps ++
        expandHop half config options tables (arrange hop direction)
          (expandAll half config options tables arrange paths steps) hop direction := by
  unfold expandAll
  rw [List.foldl_append]
  rfl

theorem stored_expandAll {steps : List (Nat × ExposureDirection)}
    (hsteps : ∀ step ∈ steps, 1 ≤ step.1) (htime : RunInTime half config options tables arrange steps) :
    ∀ path ∈ expandAll half config options tables arrange (seedPaths config tables) steps,
      Stored half config options tables path := by
  induction steps using List.reverseRecOn with
  | nil =>
    intro path hpath
    have hseed : path.direction = .seed := by
      obtain ⟨entity, _, rfl⟩ := List.mem_map.mp hpath
      rfl
    exact Or.inl ⟨hseed, hpath⟩
  | append_singleton steps step ih =>
    obtain ⟨hop, direction⟩ := step
    have hbefore := ih (fun other hother => hsteps other (List.mem_append_left _ hother))
      fun before hop' direction' after heq => htime before hop' direction' (after ++ [(hop, direction)])
        (by rw [heq]; simp)
    intro path hpath
    rw [expandAll_concat] at hpath
    rcases List.mem_append.mp hpath with hpath | hpath
    · exact hbefore path hpath
    · exact stored_expandHop (hsteps (hop, direction) (by simp)) hbefore
        (htime steps hop direction [] rfl) path hpath

theorem one_le_of_hops {maxHops : Nat} {step : Nat × ExposureDirection} (h : step ∈ hops maxHops) :
    1 ≤ step.1 := by
  obtain ⟨hop, hhop, hstep⟩ := List.mem_flatMap.mp h
  have hle := (List.mem_range'_1.mp hhop).1
  rcases List.mem_cons.mp hstep with rfl | hstep
  · exact hle
  · obtain rfl := List.mem_singleton.mp hstep
    exact hle

/-- Where every step so far was in time, every stored path is sound. -/
theorem stored_paths_sound (hvalid : options.validate = .ok options)
    {steps : List (Nat × ExposureDirection)} (hsteps : steps <+: hops options.maxHops)
    (htime : RunInTime half config options tables arrange steps) :
    ∀ path ∈ expandAll half config options tables arrange (seedPaths config tables) steps,
      ∀ direction, path.direction = .along direction →
        ∃ listed, Sound half config options tables direction path listed := by
  intro path hpath direction hdirection
  have hstored := stored_expandAll (fun step hstep => one_le_of_hops (hsteps.subset hstep)) htime
  rcases hstored path hpath with ⟨hseed, _⟩ | ⟨other, listed, hother, hne, hbuilt⟩
  · rw [hseed] at hdirection
    cases hdirection
  · rw [hother] at hdirection
    obtain rfl := PathDirection.along.inj hdirection
    exact ⟨listed, sound_of_built hbuilt hne hvalid⟩

end

end

section
variable {α : Type} [Field α] [LinearOrder α] {half : HalfLife α} {config : Config}
  {options : ExposureOptions α} {tables : Tables} {direction : ExposureDirection}

/-- An extension that the limit can keep is a row under some order of the ties,
whether it is in time or not. -/
theorem exists_stored {paths : List (ExposurePath α)} {hop : Nat} {e : Extension α}
    (he : e ∈ extensions tables paths (hop - 1) direction)
    (hahead : ahead Extension.group Extension.rank (extensions tables paths (hop - 1) direction) e <
      options.maxPathsPerSubject) :
    ∃ arrange, e.row half config options tables hop direction ∈
      expandHop half config options tables arrange paths hop direction := by
  obtain ⟨l, hl, hkept⟩ := exists_kept he hahead
  obtain ⟨arrange, rfl⟩ := exists_arrangement hl
  exact ⟨arrange, List.mem_map_of_mem hkept⟩

theorem expandAll_nil (arrange : Nat → ExposureDirection → Arrangement (Extension α))
    (steps : List (Nat × ExposureDirection)) :
    expandAll half config options tables arrange [] steps = [] := by
  induction steps with
  | nil => rfl
  | cons step steps ih =>
    have hnone : (arrange step.1 step.2).order
        (extensions tables ([] : List (ExposurePath α)) (step.1 - 1) step.2) = [] :=
      ((arrange step.1 step.2).perm []).eq_nil
    have hempty : expandHop half config options tables (arrange step.1 step.2) [] step.1 step.2 = [] := by
      unfold expandHop selected
      rw [hnone]
      rfl
    show expandAll half config options tables arrange ([] ++ expandHop half config options tables
      (arrange step.1 step.2) [] step.1 step.2) steps = []
    rw [hempty]
    exact ih

/-- The stored paths of a run that ends. -/
theorem propagate_paths (arrange : Nat → ExposureDirection → Arrangement (Extension α)) :
    (propagate half config options tables arrange).1 =
      expandAll half config options tables arrange (seedPaths config tables) (hops options.maxHops) := by
  have hall : ((seedPaths config tables : List (ExposurePath α)).filter fun p => p.direction = .seed) =
      seedPaths config tables := by
    refine List.filter_eq_self.mpr fun path hpath => ?_
    obtain ⟨entity, _, rfl⟩ := List.mem_map.mp hpath
    rfl
  unfold propagate
  simp only [hall]
  split
  · rename_i hzero
    rw [List.length_eq_zero_iff.mp hzero, expandAll_nil]
  · rfl

end

/-! ## Transfers after and before the funds came -/

theorem RunInTime.nil {α : Type} [Field α] [LinearOrder α] {half : HalfLife α} {config : Config}
    {options : ExposureOptions α} {tables : Tables}
    {arrange : Nat → ExposureDirection → Arrangement (Extension α)} :
    RunInTime half config options tables arrange [] := by
  intro before hop direction after heq
  simp at heq

theorem RunInTime.concat {α : Type} [Field α] [LinearOrder α] {half : HalfLife α} {config : Config}
    {options : ExposureOptions α} {tables : Tables}
    {arrange : Nat → ExposureDirection → Arrangement (Extension α)}
    {steps : List (Nat × ExposureDirection)} {hop : Nat} {direction : ExposureDirection}
    (h : RunInTime half config options tables arrange steps)
    (hstep : HopInTime options tables
      (expandAll half config options tables arrange (seedPaths config tables) steps) hop direction) :
    RunInTime half config options tables arrange (steps ++ [(hop, direction)]) := by
  intro before hop' direction' after heq
  rcases List.eq_nil_or_concat' after with rfl | ⟨rest, last, rfl⟩
  · obtain ⟨rfl, hlast⟩ := List.append_inj' heq rfl
    obtain ⟨rfl, rfl⟩ := Prod.mk.inj (List.singleton_inj.mp hlast)
    exact hstep
  · rw [← List.cons_append, ← List.append_assoc] at heq
    obtain ⟨rfl, _⟩ := List.append_inj' heq rfl
    exact h before hop' direction' rest rfl

noncomputable def sampleOptions : ExposureOptions ℝ := ⟨5, 1, 365, 3⟩

theorem sampleOptions_valid : sampleOptions.validate = .ok sampleOptions := by
  norm_num [ExposureOptions.validate, sampleOptions, Checks.ensure_eq, Checks.ok_bind]

/-- The seed `s` pays `a`, and `a` pays `b` at the given time. -/
def sampleTables (time : Nat) : Tables :=
  ⟨[ExposureCoverage.sampleTransfer "r1" "s" "a" 10 ExposureCoverage.s_ne ExposureCoverage.a_ne,
    ExposureCoverage.sampleTransfer "r2" "a" "b" time ExposureCoverage.a_ne ExposureCoverage.b_ne],
    [ExposureCoverage.sampleSeed], []⟩

def sampleArrange (_ : Nat) (_ : ExposureDirection) : Arrangement (Extension ℝ) :=
  Arrangement.asGiven _

noncomputable def samplePaths (time : Nat) (steps : List (Nat × ExposureDirection)) :
    List (ExposurePath ℝ) :=
  expandAll HalfLife.real ExposureCoverage.sampleConfig sampleOptions (sampleTables time) sampleArrange
    (seedPaths ExposureCoverage.sampleConfig (sampleTables time)) steps

theorem sample_path_sound : ∃ path ∈ samplePaths 20 [(1, .receivedFromSeed), (1, .sentToSeed),
    (2, .receivedFromSeed)], path.relationshipIds = ["r1", "r2"] ∧ ∃ listed, Sound HalfLife.real
      ExposureCoverage.sampleConfig sampleOptions (sampleTables 20) .receivedFromSeed path listed := by
  have hfirst : ∀ e ∈ extensions (sampleTables 20) (samplePaths 20 []) 0 .receivedFromSeed,
      e.path.hopCount = 0 := by decide +kernel
  have hsecond : ∀ e ∈ extensions (sampleTables 20) (samplePaths 20 [(1, .receivedFromSeed)]) 0
      .sentToSeed, e.path.hopCount = 0 := by decide +kernel
  have hthird : ∀ e ∈ extensions (sampleTables 20)
      (samplePaths 20 [(1, .receivedFromSeed), (1, .sentToSeed)]) 1 .receivedFromSeed,
      e.path.lastTransferUnixMs ≤ e.edge.relationship.blockTimestampUnixMs := by decide +kernel
  have hone : HopInTime sampleOptions (sampleTables 20) (samplePaths 20 []) 1 .receivedFromSeed :=
    fun e he _ => Or.inl (hfirst e he)
  have htwo : HopInTime sampleOptions (sampleTables 20) (samplePaths 20 [(1, .receivedFromSeed)]) 1
      .sentToSeed := fun e he _ => Or.inl (hsecond e he)
  have hthree : HopInTime sampleOptions (sampleTables 20)
      (samplePaths 20 [(1, .receivedFromSeed), (1, .sentToSeed)]) 2 .receivedFromSeed :=
    fun e he _ => Or.inr (hthird e he)
  have htime := ((RunInTime.nil.concat hone).concat htwo).concat hthree
  have hstored : ∃ path ∈ samplePaths 20 [(1, .receivedFromSeed), (1, .sentToSeed),
      (2, .receivedFromSeed)], path.direction = .along .receivedFromSeed ∧
        path.relationshipIds = ["r1", "r2"] := by decide +kernel
  obtain ⟨path, hpath, hdirection, hids⟩ := hstored
  have hsteps : [(1, .receivedFromSeed), (1, .sentToSeed), (2, .receivedFromSeed)] <+:
      hops sampleOptions.maxHops := by decide +kernel
  exact ⟨path, hpath, hids,
    stored_paths_sound sampleOptions_valid hsteps htime path hpath .receivedFromSeed hdirection⟩

/-- The funds that `b` received had left `a` before `a` received any from the seed. -/
theorem transfer_before_funds : ¬∀ config (options : ExposureOptions ℝ) tables arrange,
    options.validate = .ok options →
      ∀ path ∈ (propagate HalfLife.real config options tables arrange).1,
        ∀ direction, path.direction = .along direction →
          ∃ listed, Sound HalfLife.real config options tables direction path listed := by
  intro h
  have hstored : ∃ path ∈ (propagate HalfLife.real ExposureCoverage.sampleConfig sampleOptions
      (sampleTables 5) sampleArrange).1, path.direction = .along .receivedFromSeed ∧
        path.relationshipIds = ["r1", "r2"] := by decide +kernel
  obtain ⟨path, hpath, hdirection, hids⟩ := hstored
  obtain ⟨listed, hsound⟩ := h _ _ _ _ sampleOptions_valid path hpath _ hdirection
  have hlisted := hsound.ids.trans hids
  have htimes : ∀ e ∈ listed, (e.relationshipId = "r1" → e.blockTimestampUnixMs = 10) ∧
      (e.relationshipId = "r2" → e.blockTimestampUnixMs = 5) := by
    intro e he
    have hall : ∀ e ∈ (sampleTables 5).relationships,
        (e.relationshipId = "r1" → e.blockTimestampUnixMs = 10) ∧
          (e.relationshipId = "r2" → e.blockTimestampUnixMs = 5) := by decide +kernel
    exact hall e (hsound.canonical e he)
  have hlength : listed.length = 2 := by
    have hcount := congrArg List.length hlisted
    simpa using hcount
  obtain ⟨first, second, rfl⟩ := List.length_eq_two.mp hlength
  obtain ⟨hfirst, hsecond⟩ : first.relationshipId = "r1" ∧ second.relationshipId = "r2" := by
    simpa using hlisted
  have hten := (htimes first (by simp)).1 hfirst
  have hfive := (htimes second (by simp)).2 hsecond
  have hle : first.blockTimestampUnixMs ≤ second.blockTimestampUnixMs :=
    (List.isChain_cons_cons.mp hsound.chronological).1
  omega

end AmlReal.Ethereum.ExposurePaths
