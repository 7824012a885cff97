import AmlReal.Foundations.Interleaving
import AmlReal.Tron.EntityIntelligence

/-! # What the active attributions of TRON stand for

A review inserts its row and then up to four projections, of which readers see
the latest row of a key. What a review's projections can change is said once for
any projected table; the four tables are its instances. -/

namespace AmlReal.Tron.ReviewedAttribution
open AmlReal.Foundations AmlReal.Foundations.Interleaving AmlReal.Foundations.LatestRows
open AmlReal.Foundations.StoreProgram AmlReal.Foundations.StoreProgram.Program
open AmlReal.Tron.EntityIntelligence

/-! ## Subjects -/

inductive Subject where
  | label (labelId : String)
  | cluster (claimId : String)
  deriving DecidableEq

def Subject.type : Subject → String
  | .label _ => "ENTITY_LABEL"
  | .cluster _ => "CLUSTER_CLAIM"

def Subject.id : Subject → String
  | .label labelId => labelId
  | .cluster claimId => claimId

def Subject.detectionSource : Subject → String
  | .label labelId => s!"entity_label:{labelId}"
  | .cluster claimId => s!"cluster_claim:{claimId}"

/-- The decision of the last review of a subject. -/
def latestDecision (db : Database) (subject : Subject) : Option String :=
  (db.intelligenceReviews.filter fun row =>
    row.subjectType = subject.type ∧ row.subjectId = subject.id).getLast?.map
      IntelligenceReviewRow.decision

/-! ## Projected tables -/

/-- How a table is read, and which subjects its rows name. -/
structure Projection (ρ κ : Type) where
  key : ρ → κ
  active : ρ → Prop
  names : ρ → Subject → Prop

section
variable {ρ κ : Type} [DecidableEq κ] (P : Projection ρ κ)

/-- Every active row names a subject that satisfies `ok`. -/
def Backed (ok : Subject → Prop) (rows : List ρ) : Prop :=
  ∀ row ∈ newest P.key rows, P.active row → ∃ subject, P.names row subject ∧ ok subject

/-- No active row names the subject. -/
def Clear (subject : Subject) (rows : List ρ) : Prop :=
  ∀ row ∈ newest P.key rows, P.names row subject → ¬P.active row

/-- The rows that do not name the subject are the same in both. -/
def SameOthers (subject : Subject) (rows after : List ρ) : Prop :=
  ∀ row, ¬P.names row subject → (row ∈ newest P.key after ↔ row ∈ newest P.key rows)

/-- Where an active row names the subject, the row has the key and `passes` holds. -/
def ReachedAt (subject : Subject) (key : κ) (passes : Prop) (rows : List ρ) : Prop :=
  ∀ row ∈ newest P.key rows, P.active row → P.names row subject → P.key row = key ∧ passes

/-- What a rejection of the subject makes of the rows of a table, by the key its
claim leads to: it replaces a row that names the subject, or leaves the rows
because none does or because `passes` fails. -/
inductive Retired (subject : Subject) (key : κ) (passes : Prop) (rows : List ρ) : List ρ → Prop
  | replaced {current row : ρ} : current ∈ newest P.key rows → P.key current = key →
      P.names current subject → P.key row = key → P.names row subject → ¬P.active row →
        Retired subject key passes rows (rows ++ [row])
  | unmatched : (∀ row ∈ newest P.key rows, P.key row = key → ¬P.names row subject) →
      Retired subject key passes rows rows
  | skipped : ¬passes → Retired subject key passes rows rows

variable {P} {subject : Subject} {rows : List ρ} {row : ρ}

theorem Backed.mono {ok ok' : Subject → Prop} (h : Backed P ok rows) (hok : ∀ s, ok s → ok' s) :
    Backed P ok' rows := by
  intro row hrow hactive
  obtain ⟨s, hnames, hs⟩ := h row hrow hactive
  exact ⟨s, hnames, hok s hs⟩

theorem Backed.concat {ok : Subject → Prop} (h : Backed P ok rows)
    (hrow : P.active row → ∃ s, P.names row s ∧ ok s) : Backed P ok (rows ++ [row]) := by
  intro r hr hactive
  rcases mem_newest_concat.mp hr with rfl | ⟨hr, _⟩
  · exact hrow hactive
  · exact h r hr hactive

theorem Clear.concat (h : Clear P subject rows) (hrow : ¬P.active row) :
    Clear P subject (rows ++ [row]) := by
  intro r hr hnames
  rcases mem_newest_concat.mp hr with rfl | ⟨hr, _⟩
  · exact hrow
  · exact h r hr hnames

/-- Where only the subject is unbacked and no active row names it, all are backed. -/
theorem Backed.of_clear {ok : Subject → Prop} (h : Backed P (fun s => s = subject ∨ ok s) rows)
    (hclear : Clear P subject rows) : Backed P ok rows := by
  intro r hr hactive
  obtain ⟨s, hnames, rfl | hs⟩ := h r hr hactive
  · exact absurd hactive (hclear r hr hnames)
  · exact ⟨s, hnames, hs⟩

theorem SameOthers.refl (subject : Subject) (rows : List ρ) : SameOthers P subject rows rows :=
  fun _ _ => Iff.rfl

/-- An inactive row at the one key where active rows name the subject. -/
theorem clear_concat {key : κ} {passes : Prop} (hreached : ReachedAt P subject key passes rows)
    (hkey : P.key row = key) (hrow : ¬P.active row) : Clear P subject (rows ++ [row]) := by
  intro r hr hnames hactive
  rcases mem_newest_concat.mp hr with rfl | ⟨hr, hne⟩
  · exact hrow hactive
  · exact hne ((hreached r hr hactive hnames).1.trans hkey.symm)

theorem sameOthers_concat (hrow : P.names row subject)
    (hcurrent : ∀ r ∈ newest P.key rows, P.key r = P.key row → P.names r subject) :
    SameOthers P subject rows (rows ++ [row]) := by
  intro r hr
  rw [mem_newest_concat]
  constructor
  · rintro (rfl | ⟨hmem, _⟩)
    · exact absurd hrow hr
    · exact hmem
  · intro hmem
    exact Or.inr ⟨hmem, fun hkey => hr (hcurrent r hmem hkey)⟩

theorem Retired.clear {key : κ} {passes : Prop} {after : List ρ}
    (h : Retired P subject key passes rows after) (hreached : ReachedAt P subject key passes rows) :
    Clear P subject after := by
  cases h with
  | replaced _ _ _ hkey _ hrow => exact clear_concat hreached hkey hrow
  | unmatched hnone =>
    intro r hr hnames hactive
    exact hnone r hr (hreached r hr hactive hnames).1 hnames
  | skipped hpasses =>
    intro r hr hnames hactive
    exact hpasses (hreached r hr hactive hnames).2

theorem Retired.sameOthers {key : κ} {passes : Prop} {after : List ρ}
    (h : Retired P subject key passes rows after) : SameOthers P subject rows after := by
  cases h with
  | @replaced current row hcurrent hat hnames hkey hrow _ =>
    refine sameOthers_concat hrow fun r hr hsame => ?_
    -- the key has one current row
    obtain rfl := latest_unique hr hcurrent (hsame.trans (hkey.trans hat.symm))
    exact hnames
  | unmatched _ => exact SameOthers.refl subject rows
  | skipped _ => exact SameOthers.refl subject rows

end

/-! ## The four tables -/

def entities : Projection AddressEntityRow String where
  key := AddressEntityRow.address
  active row := row.isActive = 1
  names row subject := subject = .label row.source

def exchanges : Projection ExchangeAddressRow String where
  key := ExchangeAddressRow.address
  active row := row.isActive = 1
  names row subject := row.detectionSource = subject.detectionSource

def seeds : Projection ExposureSeedRow String where
  key := ExposureSeedRow.address
  active row := row.isActive = 1
  names row subject := subject = .label row.sourceLabelId

def memberships : Projection AddressClusterMembershipRow (String × String) where
  key := membershipKey
  active row := row.isActive = 1
  names row subject := subject = .cluster row.sourceClaimId

structure AllBacked (ok : Subject → Prop) (db : Database) : Prop where
  entity : Backed entities ok db.addressEntity
  exchange : Backed exchanges ok db.exchangeAddresses
  seed : Backed seeds ok db.exposureSeeds
  membership : Backed memberships ok db.addressClusterMemberships

structure AllClear (subject : Subject) (db : Database) : Prop where
  entity : Clear entities subject db.addressEntity
  exchange : Clear exchanges subject db.exchangeAddresses
  seed : Clear seeds subject db.exposureSeeds
  membership : Clear memberships subject db.addressClusterMemberships

structure AllSame (subject : Subject) (db after : Database) : Prop where
  entity : SameOthers entities subject db.addressEntity after.addressEntity
  exchange : SameOthers exchanges subject db.exchangeAddresses after.exchangeAddresses
  seed : SameOthers seeds subject db.exposureSeeds after.exposureSeeds
  membership : SameOthers memberships subject db.addressClusterMemberships
    after.addressClusterMemberships

/-- Every active row names a subject whose latest review approves it. -/
def Attributed (db : Database) : Prop :=
  AllBacked (fun subject => latestDecision db subject = some "APPROVED") db

/-- The same, but for the rows that name one subject. -/
def AttributedBut (subject : Subject) (db : Database) : Prop :=
  AllBacked (fun s => s = subject ∨ latestDecision db s = some "APPROVED") db

/-- The inserts of a review of the subject after its review row. -/
def Projects (subject : Subject) (approved : Bool) : Insert → Prop
  | .addressEntity row => entities.names row subject ∧ row.isActive = approved.toNat
  | .exchangeAddresses row => exchanges.names row subject ∧ row.isActive = approved.toNat
  | .exposureSeeds row => seeds.names row subject ∧ row.isActive = approved.toNat
  | .addressClusterMemberships row => memberships.names row subject ∧ row.isActive = approved.toNat
  | .clusterVersions _ => True
  | _ => False

section
variable {db : Database} {subject : Subject} {approved : Bool} {w : Insert}

theorem AllBacked.mono {ok ok' : Subject → Prop} (h : AllBacked ok db) (hok : ∀ s, ok s → ok' s) :
    AllBacked ok' db :=
  ⟨h.entity.mono hok, h.exchange.mono hok, h.seed.mono hok, h.membership.mono hok⟩

theorem latestDecision_projects (h : Projects subject approved w) (s : Subject) :
    latestDecision (LogStore.append db w) s = latestDecision db s := by
  cases w with
  | intelligenceReviews row => cases h
  | _ => rfl

theorem latestDecision_review (row : IntelligenceReviewRow) (s : Subject) :
    latestDecision (LogStore.append db (.intelligenceReviews row)) s =
      if row.subjectType = s.type ∧ row.subjectId = s.id then some row.decision
      else latestDecision db s := by
  show (((db.intelligenceReviews ++ [row]).filter fun row =>
    row.subjectType = s.type ∧ row.subjectId = s.id).getLast?.map IntelligenceReviewRow.decision) = _
  by_cases hs : row.subjectType = s.type ∧ row.subjectId = s.id
  · simp [List.filter_append, hs]
  · simp [List.filter_append, hs, latestDecision]

/-- Every insert of a review names its subject. -/
theorem attributedBut_projects (h : AttributedBut subject db) (hw : Projects subject approved w) :
    AttributedBut subject (LogStore.append db w) := by
  have hok : ∀ s, (s = subject ∨ latestDecision db s = some "APPROVED") →
      s = subject ∨ latestDecision (LogStore.append db w) s = some "APPROVED" := by
    intro s hs
    rwa [latestDecision_projects hw]
  have hmono := h.mono hok
  cases w with
  | addressEntity row =>
    exact ⟨hmono.entity.concat fun _ => ⟨subject, hw.1, Or.inl rfl⟩, hmono.exchange, hmono.seed,
      hmono.membership⟩
  | exchangeAddresses row =>
    exact ⟨hmono.entity, hmono.exchange.concat fun _ => ⟨subject, hw.1, Or.inl rfl⟩, hmono.seed,
      hmono.membership⟩
  | exposureSeeds row =>
    exact ⟨hmono.entity, hmono.exchange, hmono.seed.concat fun _ => ⟨subject, hw.1, Or.inl rfl⟩,
      hmono.membership⟩
  | addressClusterMemberships row =>
    exact ⟨hmono.entity, hmono.exchange, hmono.seed,
      hmono.membership.concat fun _ => ⟨subject, hw.1, Or.inl rfl⟩⟩
  | clusterVersions row => exact ⟨hmono.entity, hmono.exchange, hmono.seed, hmono.membership⟩
  | _ => cases hw

/-- The inserts of a rejection are inactive. -/
theorem allClear_projects {other : Subject} (h : AllClear other db) (hw : Projects subject false w) :
    AllClear other (LogStore.append db w) := by
  have hinactive : ∀ {n : Nat}, n = false.toNat → ¬n = 1 := by
    rintro _ rfl h
    cases h
  cases w with
  | addressEntity row => exact ⟨h.entity.concat (hinactive hw.2), h.exchange, h.seed, h.membership⟩
  | exchangeAddresses row => exact ⟨h.entity, h.exchange.concat (hinactive hw.2), h.seed, h.membership⟩
  | exposureSeeds row => exact ⟨h.entity, h.exchange, h.seed.concat (hinactive hw.2), h.membership⟩
  | addressClusterMemberships row =>
    exact ⟨h.entity, h.exchange, h.seed, h.membership.concat (hinactive hw.2)⟩
  | clusterVersions row => exact ⟨h.entity, h.exchange, h.seed, h.membership⟩
  | _ => cases hw

theorem AttributedBut.of_clear (h : AttributedBut subject db) (hclear : AllClear subject db) :
    Attributed db :=
  ⟨h.entity.of_clear hclear.entity, h.exchange.of_clear hclear.exchange, h.seed.of_clear hclear.seed,
    h.membership.of_clear hclear.membership⟩

theorem AttributedBut.of_approved (h : AttributedBut subject db)
    (happroved : latestDecision db subject = some "APPROVED") : Attributed db := by
  refine h.mono ?_
  rintro s (rfl | hs)
  · exact happroved
  · exact hs

end

/-! ## What a review inserts -/

section
variable {subject : Subject} {approved : Bool}

theorem only_approvedOr {P : Insert → Prop} {check : Work Bool} (h : Only P check) :
    Only P (approvedOr approved check) := by
  unfold approvedOr
  split
  · exact only_pure true
  · exact h

theorem only_projectEntityReview (claim : EntityLabelClaimRow) (review : IntelligenceReviewRow) :
    Only (Projects (.label claim.labelId) (review.decision = "APPROVED"))
      (projectEntityReview claim review) := by
  unfold projectEntityReview projectEntity projectLabelExchange projectSeed
  refine Only.bind ?_ fun _ => Only.bind ?_ fun _ => ?_
  · exact (only_approvedOr (only_read _)).bind fun _ => (only_write ⟨rfl, rfl⟩).when _
  · split
    · exact (only_approvedOr (only_read _)).bind fun _ => (only_write ⟨rfl, rfl⟩).when _
    · exact only_pure ()
  · split
    · exact (only_approvedOr (only_read _)).bind fun _ => (only_write ⟨rfl, rfl⟩).when _
    · exact only_pure ()

theorem only_loadAnchor {P : Insert → Prop} (evidenceAddresses : List String) :
    Only P (loadClusterProjectionAnchor evidenceAddresses) := by
  unfold loadClusterProjectionAnchor
  split
  · exact only_pure none
  · exact only_read _

theorem only_projectClusterReview (claim : AddressClusterClaimRow) (review : IntelligenceReviewRow) :
    Only (Projects (.cluster claim.claimId) (review.decision = "APPROVED"))
      (projectClusterReview claim review) := by
  unfold projectClusterReview clusterDisplayName projectClusterExchangeAddress
  refine (only_read _).bind fun version => (only_read _).bind fun others => ?_
  refine Only.bind (only_write ⟨rfl, rfl⟩) fun _ => ?_
  refine Only.bind ((only_loadAnchor _).bind fun _ => only_pure _) fun displayName => ?_
  refine Only.bind (only_write trivial) fun _ => ?_
  refine (only_approvedOr (only_read _)).bind fun matched => ?_
  split
  · refine (only_loadAnchor _).bind fun anchor => ?_
    cases anchor with
    | none => exact only_pure ()
    | some anchor => exact only_write ⟨rfl, rfl⟩
  · exact only_pure ()

end

/-- What a review does after its row, by the claim it has loaded. -/
inductive Reviewing (db : Database) (row : IntelligenceReviewRow) : Subject → Work Unit → Prop
  | label {claim : EntityLabelClaimRow} : row.subjectType = "ENTITY_LABEL" →
      claim.labelId = row.subjectId →
      ((currentLabels db).find? fun label => label.labelId = row.subjectId) = some claim →
        Reviewing db row (.label claim.labelId) (projectEntityReview claim row)
  | cluster {claim : AddressClusterClaimRow} : row.subjectType = "CLUSTER_CLAIM" →
      claim.claimId = row.subjectId →
      ((currentClusterClaims db).find? fun claim => claim.claimId = row.subjectId) = some claim →
        Reviewing db row (.cluster claim.claimId) (projectClusterReview claim row)

section
variable {db : Database} {row : IntelligenceReviewRow} {subject : Subject} {ws : List Insert}

theorem Reviewing.only {projection : Work Unit} (h : Reviewing db row subject projection) :
    Only (Projects subject (row.decision = "APPROVED")) projection := by
  cases h with
  | label => exact only_projectEntityReview _ row
  | cluster => exact only_projectClusterReview _ row

theorem Reviewing.subject_eq {projection : Work Unit} (h : Reviewing db row subject projection) :
    row.subjectType = subject.type ∧ row.subjectId = subject.id := by
  cases h with
  | label htype hid _ => exact ⟨htype, hid.symm⟩
  | cluster htype hid _ => exact ⟨htype, hid.symm⟩

/-- A review fails before its first insert, or inserts its row and projects it. -/
theorem projectReview_exec (db : Database) (row : IntelligenceReviewRow)
    (htype : row.subjectType ∈ ["ENTITY_LABEL", "CLUSTER_CLAIM"]) :
    (∃ e, (projectReview row).exec db = ([], .error e)) ∨
      ∃ subject projection, Reviewing db row subject projection ∧
        (projectReview row).exec db =
          (write (.intelligenceReviews row) >>= fun _ => projection : Work Unit).exec db := by
  unfold projectReview
  split
  · rename_i hlabel
    cases hfind : (currentLabels db).find? fun label => label.labelId = row.subjectId with
    | none =>
      refine Or.inl ⟨s!"entity label {row.subjectId.quote} does not exist", ?_⟩
      show (lift (Checks.context ((currentLabels db).find? _) _) >>= _ : Work Unit).exec db = _
      rw [hfind]
      rfl
    | some claim =>
      have hid : claim.labelId = row.subjectId := by simpa using List.find?_some hfind
      refine Or.inr ⟨_, _, .label hlabel hid hfind, ?_⟩
      show (lift (Checks.context ((currentLabels db).find? _) _) >>= _ : Work Unit).exec db = _
      rw [hfind]
      rfl
  · rename_i hlabel
    have hcluster : row.subjectType = "CLUSTER_CLAIM" := by simpa [hlabel] using htype
    cases hfind : (currentClusterClaims db).find? fun claim => claim.claimId = row.subjectId with
    | none =>
      refine Or.inl ⟨s!"cluster claim {row.subjectId.quote} does not exist", ?_⟩
      show (lift (Checks.context ((currentClusterClaims db).find? _) _) >>= _ : Work Unit).exec db = _
      rw [hfind]
      rfl
    | some claim =>
      have hid : claim.claimId = row.subjectId := by simpa using List.find?_some hfind
      refine Or.inr ⟨_, _, .cluster hcluster hid hfind, ?_⟩
      show (lift (Checks.context ((currentClusterClaims db).find? _) _) >>= _ : Work Unit).exec db = _
      rw [hfind]
      rfl

end

/-! ## What a completed rejection leaves -/

section
variable {db : Database} {ws : List Insert} {u : Unit}

/-- A projection of a rejection inserts its row where its query finds a match. -/
theorem returns_guarded {view : Database → Bool} {w : Insert}
    (h : Returns (approvedOr false (read view) >>= fun matched => Program.when (matched = true)
      (write w : Work Unit)) db ws u) : (view db = true ∧ ws = [w]) ∨ (¬view db = true ∧ ws = []) := by
  have hwhen : Returns (Program.when (view db = true) (write w : Work Unit)) db ws u := h
  rcases returns_when hwhen with ⟨hview, hwrite⟩ | ⟨hview, rfl⟩
  · exact Or.inl ⟨hview, returns_write hwrite⟩
  · exact Or.inr ⟨hview, rfl⟩

section
variable {claim : EntityLabelClaimRow}

theorem returns_projectEntity (h : Returns (projectEntity claim false) db ws u) :
    ∃ after, replay db ws = { db with addressEntity := after } ∧
      Retired entities (.label claim.labelId) claim.address True db.addressEntity after := by
  rcases returns_guarded h with ⟨hview, rfl⟩ | ⟨hview, rfl⟩
  · obtain ⟨current, hcurrent, haddress, hsource⟩ := find_newest.mp (of_decide_eq_true hview)
    exact ⟨_, rfl, .replaced hcurrent haddress (by rw [← hsource]; rfl) rfl rfl Nat.zero_ne_one⟩
  · refine ⟨_, rfl, .unmatched fun row hrow haddress hnames => hview (decide_eq_true ?_)⟩
    exact find_newest.mpr ⟨row, hrow, haddress, (Subject.label.inj hnames).symm⟩

theorem returns_projectLabelExchange (h : Returns (projectLabelExchange claim false) db ws u) :
    ∃ after, replay db ws = { db with exchangeAddresses := after } ∧
      Retired exchanges (.label claim.labelId) claim.address
        (isExchangeEntityType claim.entityType = true) db.exchangeAddresses after := by
  unfold projectLabelExchange at h
  split at h
  · rcases returns_guarded h with ⟨hview, rfl⟩ | ⟨hview, rfl⟩
    · obtain ⟨current, hcurrent, haddress, hsource⟩ := find_newest.mp (of_decide_eq_true hview)
      exact ⟨_, rfl, .replaced hcurrent haddress hsource rfl rfl Nat.zero_ne_one⟩
    · refine ⟨_, rfl, .unmatched fun row hrow haddress hnames => hview (decide_eq_true ?_)⟩
      exact find_newest.mpr ⟨row, hrow, haddress, hnames⟩
  · rename_i htype
    obtain ⟨rfl, _⟩ := returns_pure h
    exact ⟨_, rfl, .skipped htype⟩

theorem returns_projectSeed (h : Returns (projectSeed claim false) db ws u) :
    ∃ after, replay db ws = { db with exposureSeeds := after } ∧
      Retired seeds (.label claim.labelId) claim.address (0 < claim.riskPercent)
        db.exposureSeeds after := by
  unfold projectSeed at h
  split at h
  · rcases returns_guarded h with ⟨hview, rfl⟩ | ⟨hview, rfl⟩
    · obtain ⟨current, hcurrent, haddress, hsource⟩ := find_newest.mp (of_decide_eq_true hview)
      exact ⟨_, rfl, .replaced hcurrent haddress (by rw [← hsource]; rfl) rfl rfl Nat.zero_ne_one⟩
    · refine ⟨_, rfl, .unmatched fun row hrow haddress hnames => hview (decide_eq_true ?_)⟩
      exact find_newest.mpr ⟨row, hrow, haddress, (Subject.label.inj hnames).symm⟩
  · rename_i hrisk
    obtain ⟨rfl, _⟩ := returns_pure h
    exact ⟨_, rfl, .skipped hrisk⟩

end

section
variable {claim : AddressClusterClaimRow}

theorem quiet_loadAnchor (evidenceAddresses : List String) :
    Quiet (loadClusterProjectionAnchor evidenceAddresses) := by
  unfold loadClusterProjectionAnchor
  split
  · exact quiet_pure none
  · exact quiet_read _

theorem returns_loadAnchor {evidenceAddresses : List String} {anchor : Option ExchangeAddressRow}
    (h : Returns (loadClusterProjectionAnchor evidenceAddresses) db ws anchor) :
    ws = [] ∧ anchor = clusterProjectionAnchor db evidenceAddresses := by
  unfold loadClusterProjectionAnchor at h
  split at h
  · rename_i hnil
    obtain ⟨rfl, rfl⟩ := returns_pure h
    exact ⟨rfl, by simp [clusterProjectionAnchor, hnil]⟩
  · obtain ⟨hws, hanchor⟩ := returns_read h
    exact ⟨hws, hanchor⟩

theorem returns_projectClusterExchange (h : Returns (projectClusterExchangeAddress claim false) db ws u) :
    ∃ after, replay db ws = { db with exchangeAddresses := after } ∧
      Retired exchanges (.cluster claim.claimId) claim.address
        (clusterProjectionAnchor db claim.evidenceAddresses ≠ none) db.exchangeAddresses after := by
  unfold projectClusterExchangeAddress at h
  obtain ⟨first, matched, rest, rfl, hmatched, hrest⟩ := h.bind
  obtain ⟨rfl, rfl⟩ := returns_read hmatched
  split at hrest
  · rename_i hview
    obtain ⟨second, anchor, rest, rfl, hanchor, hrest⟩ := hrest.bind
    obtain ⟨rfl, rfl⟩ := returns_loadAnchor hanchor
    cases hfound : clusterProjectionAnchor db claim.evidenceAddresses with
    | none =>
      have hnone : clusterProjectionAnchor (replay db ([] : List Insert)) claim.evidenceAddresses =
        none := hfound
      rw [hnone] at hrest
      obtain ⟨rfl, _⟩ := returns_pure hrest
      exact ⟨_, rfl, .skipped (not_not.mpr rfl)⟩
    | some anchor =>
      have hsome : clusterProjectionAnchor (replay db ([] : List Insert)) claim.evidenceAddresses =
        some anchor := hfound
      rw [hsome] at hrest
      obtain rfl := returns_write hrest
      obtain ⟨current, hcurrent, haddress, hsource⟩ := find_newest.mp (of_decide_eq_true hview)
      exact ⟨_, rfl, .replaced hcurrent haddress hsource rfl rfl Nat.zero_ne_one⟩
  · rename_i hview
    obtain ⟨rfl, _⟩ := returns_pure hrest
    refine ⟨_, rfl, .unmatched fun row hrow haddress hnames => hview (decide_eq_true ?_)⟩
    exact find_newest.mpr ⟨row, hrow, haddress, hnames⟩

end

end

/-! ## Rejections whose claim leads to the rows -/

/-- Every active row that names the label is where the label leads. -/
structure LabelReaches (db : Database) (claim : EntityLabelClaimRow) : Prop where
  entity : ReachedAt entities (.label claim.labelId) claim.address True db.addressEntity
  exchange : ReachedAt exchanges (.label claim.labelId) claim.address
    (isExchangeEntityType claim.entityType = true) db.exchangeAddresses
  seed : ReachedAt seeds (.label claim.labelId) claim.address (0 < claim.riskPercent) db.exposureSeeds

/-- The same for a cluster claim, whose membership row is replaced without a match. -/
structure ClusterReaches (db : Database) (claim : AddressClusterClaimRow) : Prop where
  exchange : ReachedAt exchanges (.cluster claim.claimId) claim.address
    (clusterProjectionAnchor db claim.evidenceAddresses ≠ none) db.exchangeAddresses
  membership : ReachedAt memberships (.cluster claim.claimId) (claim.address, claim.clusterId) True
    db.addressClusterMemberships
  own : ∀ row ∈ currentMemberships db, membershipKey row = (claim.address, claim.clusterId) →
    row.sourceClaimId = claim.claimId

/-- By the claim that a review of the subject loads. -/
def Reaches (db : Database) : Subject → Prop
  | .label labelId => ∀ claim,
    ((currentLabels db).find? fun label => label.labelId = labelId) = some claim → LabelReaches db claim
  | .cluster claimId => ∀ claim,
    ((currentClusterClaims db).find? fun claim => claim.claimId = claimId) = some claim →
      ClusterReaches db claim

section
variable {db : Database} {row : IntelligenceReviewRow} {ws : List Insert} {u : Unit}

theorem retires_label {claim : EntityLabelClaimRow} (hreaches : LabelReaches db claim)
    (hdecision : row.decision = "REJECTED") (h : Returns (projectEntityReview claim row) db ws u) :
    AllClear (.label claim.labelId) (replay db ws) ∧
      AllSame (.label claim.labelId) db (replay db ws) := by
  have happroved : decide (row.decision = "APPROVED") = false := by simp [hdecision]
  unfold projectEntityReview at h
  simp only [happroved] at h
  obtain ⟨first, _, rest, rfl, hentity, h⟩ := h.bind
  obtain ⟨second, _, third, rfl, hexchange, hseed⟩ := h.bind
  obtain ⟨entityRows, hafter, hentities⟩ := returns_projectEntity hentity
  rw [hafter] at hexchange hseed
  obtain ⟨exchangeRows, hafter', hexchanges⟩ := returns_projectLabelExchange hexchange
  rw [hafter'] at hseed
  obtain ⟨seedRows, hafter'', hseeds⟩ := returns_projectSeed hseed
  rw [replay_append, hafter, replay_append, hafter', hafter'']
  refine ⟨⟨hentities.clear hreaches.entity, hexchanges.clear hreaches.exchange,
    hseeds.clear hreaches.seed, ?_⟩, ⟨hentities.sameOthers, hexchanges.sameOthers, hseeds.sameOthers,
    SameOthers.refl _ _⟩⟩
  intro r _ hnames
  cases hnames

theorem retires_cluster {claim : AddressClusterClaimRow} (hreaches : ClusterReaches db claim)
    (hdecision : row.decision = "REJECTED") (h : Returns (projectClusterReview claim row) db ws u) :
    AllClear (.cluster claim.claimId) (replay db ws) ∧
      AllSame (.cluster claim.claimId) db (replay db ws) := by
  have happroved : decide (row.decision = "APPROVED") = false := by simp [hdecision]
  unfold projectClusterReview at h
  simp only [happroved] at h
  obtain ⟨first, version, rest, rfl, hversion, h⟩ := h.bind
  obtain ⟨rfl, _⟩ := returns_read hversion
  obtain ⟨first, others, rest, rfl, hothers, h⟩ := h.bind
  obtain ⟨rfl, _⟩ := returns_read hothers
  obtain ⟨first, _, rest, rfl, hmember, h⟩ := h.bind
  obtain rfl := returns_write hmember
  obtain ⟨first, displayName, rest, rfl, hname, h⟩ := h.bind
  obtain rfl := ((quiet_loadAnchor _).bind fun _ => quiet_pure _).returns hname
  obtain ⟨first, _, rest, rfl, hclusterVersion, h⟩ := h.bind
  obtain rfl := returns_write hclusterVersion
  obtain ⟨exchangeRows, hafter, hexchanges⟩ := returns_projectClusterExchange h
  simp only [List.nil_append, replay_append, replay_nil] at hafter hexchanges ⊢
  rw [hafter]
  refine ⟨⟨?_, hexchanges.clear hreaches.exchange, ?_, ?_⟩, ⟨SameOthers.refl _ _,
    hexchanges.sameOthers, SameOthers.refl _ _, ?_⟩⟩
  · intro r _ hnames
    cases hnames
  · intro r _ hnames
    cases hnames
  · exact clear_concat hreaches.membership rfl Nat.zero_ne_one
  · refine sameOthers_concat rfl fun r hr hkey => ?_
    exact congrArg Subject.cluster (hreaches.own r hr hkey).symm

theorem Reviewing.retires {subject : Subject} {projection : Work Unit}
    (h : Reviewing db row subject projection) (hreaches : Reaches db subject)
    (hdecision : row.decision = "REJECTED")
    (hreturns : Returns projection (LogStore.append db (.intelligenceReviews row)) ws u) :
    AllClear subject (replay db (.intelligenceReviews row :: ws)) ∧
      AllSame subject db (replay db (.intelligenceReviews row :: ws)) := by
  rw [replay_cons]
  -- the tables that are projected are not those of the review row
  cases h with
  | @label claim _ hid hfind =>
    have hclaim := hreaches claim (hid ▸ hfind)
    have hlogged : LabelReaches (LogStore.append db (.intelligenceReviews row)) claim :=
      ⟨hclaim.entity, hclaim.exchange, hclaim.seed⟩
    obtain ⟨hclear, hsame⟩ := retires_label hlogged hdecision hreturns
    exact ⟨hclear, ⟨hsame.entity, hsame.exchange, hsame.seed, hsame.membership⟩⟩
  | @cluster claim _ hid hfind =>
    have hclaim := hreaches claim (hid ▸ hfind)
    have hlogged : ClusterReaches (LogStore.append db (.intelligenceReviews row)) claim :=
      ⟨hclaim.exchange, hclaim.membership, hclaim.own⟩
    obtain ⟨hclear, hsame⟩ := retires_cluster hlogged hdecision hreturns
    exact ⟨hclear, ⟨hsame.entity, hsame.exchange, hsame.seed, hsame.membership⟩⟩

end

/-! ## Runs -/

inductive Operation where
  | source (input : IntelligenceSourceInput) (now : Nat)
  | label (input : EntityLabelSubmission) (now : Nat)
  | cluster (row : AddressClusterClaimRow)
  | clusters (rows : List AddressClusterClaimRow)
  | review (input : IntelligenceReviewInput) (reviewId : String) (now : Nat)

def Operation.program (config : Config) : Operation → Work Unit
  | .source input now => registerIntelligenceSource input now >>= fun _ => pure ()
  | .label input now => submitEntityLabel config input now >>= fun _ => pure ()
  | .cluster row => submitClusterClaim config row
  | .clusters rows => submitClusterClaims config rows >>= fun _ => pure ()
  | .review input reviewId now => reviewIntelligenceSubject input reviewId now >>= fun _ => pure ()

/-- The review is of the subject and takes the decision. -/
structure Decides (input : IntelligenceReviewInput) (decision : String) (subject : Subject) : Prop where
  type : normalizeEnum "subject_type" input.subjectType ["ENTITY_LABEL", "CLUSTER_CLAIM"] =
    .ok subject.type
  id : input.subjectId = subject.id
  decision : normalizeEnum "decision" input.decision ["APPROVED", "REJECTED"] = .ok decision

/-- A rejection finds the active rows of its claim, and runs to its end where
there are any. -/
def Orderly (db : Database) : Operation → List Insert → Prop
  | .review input reviewId now, ws => ∀ subject, Decides input "REJECTED" subject →
    Reaches db subject ∧ (AllClear subject db ∨ ws = [] ∨
      ∃ row, Returns (reviewIntelligenceSubject input reviewId now) db ws row)
  | _, _ => True

theorem normalizeEnum_mem {field value normalized : String} {allowed : List String}
    (h : normalizeEnum field value allowed = .ok normalized) : normalized ∈ allowed := by
  unfold normalizeEnum at h
  simp only at h
  split at h
  · rename_i hmem
    rwa [Except.ok.inj h] at hmem
  · cases h

section
variable {db : Database} {input : IntelligenceReviewInput} {reviewId : String} {now : Nat}
  {ws : List Insert}

/-- A review stops at a check, or is the projection of its row. -/
theorem review_exec (db : Database) (input : IntelligenceReviewInput) (reviewId : String) (now : Nat) :
    (∃ e, (reviewIntelligenceSubject input reviewId now).exec db = ([], .error e)) ∨
      ∃ row subject projection, Decides input row.decision subject ∧
        Reviewing db row subject projection ∧
        (reviewIntelligenceSubject input reviewId now).exec db =
          (write (.intelligenceReviews row) >>= fun _ => projection >>= fun _ => pure row :
            Work IntelligenceReviewRow).exec db := by
  unfold reviewIntelligenceSubject
  cases htype : normalizeEnum "subject_type" input.subjectType ["ENTITY_LABEL", "CLUSTER_CLAIM"] with
  | error e => exact Or.inl ⟨e, rfl⟩
  | ok subjectType =>
    cases hdecision : normalizeEnum "decision" input.decision ["APPROVED", "REJECTED"] with
    | error e => exact Or.inl ⟨e, rfl⟩
    | ok decision =>
      cases hid : validateNonEmpty "subject_id" input.subjectId with
      | error e => exact Or.inl ⟨e, rfl⟩
      | ok _ =>
        cases hreviewer : validateNonEmpty "reviewer" input.reviewer with
        | error e => exact Or.inl ⟨e, rfl⟩
        | ok _ =>
          let row : IntelligenceReviewRow := ⟨reviewId, subjectType, input.subjectId, decision,
            input.reviewer, input.reason, input.evidenceRefs, now⟩
          show (∃ e, (projectReview row >>= fun _ => pure row : Work _).exec db = ([], .error e)) ∨ _
          rcases projectReview_exec db row (normalizeEnum_mem htype) with
            ⟨e, herror⟩ | ⟨subject, projection, hreviewing, hexec⟩
          · refine Or.inl ⟨e, ?_⟩
            rw [exec_bind, herror]
          · obtain ⟨hsubjectType, hsubjectId⟩ := hreviewing.subject_eq
            refine Or.inr ⟨row, subject, projection, ⟨?_, hsubjectId, hdecision⟩, hreviewing, ?_⟩
            · rw [htype]
              exact congrArg _ hsubjectType
            · show (projectReview row >>= fun _ => pure row : Work _).exec db = _
              rw [exec_bind, hexec, ← exec_bind]
              rfl

end

theorem Subject.eq_of {s t : Subject} (htype : s.type = t.type) (hid : s.id = t.id) : s = t := by
  cases s with
  | label labelId =>
    cases t with
    | label _ => exact congrArg _ hid
    | cluster _ => exact absurd htype (show "ENTITY_LABEL" ≠ "CLUSTER_CLAIM" by decide)
  | cluster claimId =>
    cases t with
    | label _ => exact absurd htype (show "CLUSTER_CLAIM" ≠ "ENTITY_LABEL" by decide)
    | cluster _ => exact congrArg _ hid

theorem Decides.unique {input : IntelligenceReviewInput} {decision decision' : String}
    {subject subject' : Subject} (h : Decides input decision subject)
    (h' : Decides input decision' subject') : subject = subject' ∧ decision = decision' :=
  ⟨Subject.eq_of (Except.ok.inj (h.type.symm.trans h'.type)) (h.id.symm.trans h'.id),
    Except.ok.inj (h.decision.symm.trans h'.decision)⟩

section
variable {db : Database} {input : IntelligenceReviewInput} {reviewId : String} {now : Nat}
  {ws : List Insert} {subject : Subject} {row : IntelligenceReviewRow}

/-- A completed rejection that reaches the rows of its claim retires them and no others. -/
theorem review_retires (hdecides : Decides input "REJECTED" subject) (hreaches : Reaches db subject)
    (h : Returns (reviewIntelligenceSubject input reviewId now) db ws row) :
    AllClear subject (replay db ws) ∧ AllSame subject db (replay db ws) := by
  unfold Returns at h
  rcases review_exec db input reviewId now with
    ⟨e, herror⟩ | ⟨written, reviewed, projection, hdecides', hreviewing, hexec⟩
  · rw [herror] at h
    cases h
  · rw [hexec] at h
    obtain ⟨rfl, hdecision⟩ := hdecides.unique hdecides'
    have hreturns : Returns (write (.intelligenceReviews written) >>= fun _ => projection >>= fun _ =>
      pure written) db ws row := h
    obtain ⟨first, _, rest, rfl, hwrite, hrest⟩ := hreturns.bind
    obtain rfl := returns_write hwrite
    obtain ⟨projected, _, last, rfl, hproject, hlast⟩ := hrest.bind
    obtain ⟨rfl, _⟩ := returns_pure hlast
    rw [List.append_nil]
    exact hreviewing.retires hreaches hdecision.symm hproject

theorem attributedBut_review (h : Attributed db)
    (hsubject : row.subjectType = subject.type ∧ row.subjectId = subject.id) :
    AttributedBut subject (LogStore.append db (.intelligenceReviews row)) := by
  have hlogged : AttributedBut subject db := h.mono fun s hs => Or.inr hs
  have hok : ∀ s, (s = subject ∨ latestDecision db s = some "APPROVED") → s = subject ∨
      latestDecision (LogStore.append db (.intelligenceReviews row)) s = some "APPROVED" := by
    rintro s (hs | hs)
    · exact Or.inl hs
    · by_cases hsame : s = subject
      · exact Or.inl hsame
      · refine Or.inr ?_
        rw [latestDecision_review, if_neg ?_]
        · exact hs
        · rintro ⟨htype, hid⟩
          exact hsame (Subject.eq_of (htype.symm.trans hsubject.1) (hid.symm.trans hsubject.2))
  have hmono := hlogged.mono hok
  exact ⟨hmono.entity, hmono.exchange, hmono.seed, hmono.membership⟩

theorem attributed_review (h : Attributed db)
    (hwrites : Writes (reviewIntelligenceSubject input reviewId now) db ws)
    (horderly : Orderly db (.review input reviewId now) ws) : Attributed (replay db ws) := by
  rcases review_exec db input reviewId now with
    ⟨e, herror⟩ | ⟨row, subject, projection, hdecides, hreviewing, hexec⟩
  · unfold Writes at hwrites
    rw [herror] at hwrites
    obtain rfl := List.prefix_nil.mp hwrites
    exact h
  have hlogged : Writes (write (.intelligenceReviews row) >>= fun _ => projection >>= fun _ =>
      pure row) db ws := by
    unfold Writes at hwrites ⊢
    rwa [← hexec]
  rcases writes_write hlogged with rfl | ⟨rest, rfl, hrest⟩
  · exact h
  have hprojects : ∀ w ∈ rest, Projects subject (row.decision = "APPROVED") w :=
    hreviewing.only.writes (hrest.of_quiet_tail fun _ => quiet_pure _)
  rw [replay_cons]
  have hbut : AttributedBut subject (replay (LogStore.append db (.intelligenceReviews row)) rest) :=
    replay_keeps (fun w hw t ht => attributedBut_projects ht (hprojects w hw))
      (attributedBut_review h hreviewing.subject_eq)
  have hdecision : row.decision = "APPROVED" ∨ row.decision = "REJECTED" := by
    simpa using normalizeEnum_mem hdecides.decision
  rcases hdecision with happroved | hrejected
  · refine hbut.of_approved ?_
    have hlatest : latestDecision (LogStore.append db (.intelligenceReviews row)) subject =
        some "APPROVED" := by
      rw [latestDecision_review, if_pos hreviewing.subject_eq, happroved]
    exact replay_keeps (K := fun t => latestDecision t subject = some "APPROVED")
      (fun w hw t ht => (latestDecision_projects (hprojects w hw) subject).trans ht) hlatest
  · have hrejects : Decides input "REJECTED" subject := hrejected ▸ hdecides
    have hinactive : ∀ w ∈ rest, Projects subject false w := by
      have hfalse : decide (row.decision = "APPROVED") = false := by simp [hrejected]
      exact hfalse ▸ hprojects
    obtain ⟨hreaches, hclear | hnil | ⟨returned, hreturns⟩⟩ := horderly subject hrejects
    · have hstart : AllClear subject (LogStore.append db (.intelligenceReviews row)) :=
        ⟨hclear.entity, hclear.exchange, hclear.seed, hclear.membership⟩
      exact hbut.of_clear
        (replay_keeps (fun w hw t ht => allClear_projects ht (hinactive w hw)) hstart)
    · cases hnil
    · exact hbut.of_clear (review_retires hrejects hreaches hreturns).1

end

/-! ## Submissions -/

section
-- what a submission inserts does not depend on its checks, which are not to be unfolded
attribute [local irreducible] Only

/-- The inserts of a submission. -/
def Submits : Insert → Prop
  | .intelligenceSources _ | .entityLabels _ | .addressClusterClaims _ => True
  | _ => False

theorem only_requireActiveSource {P : Insert → Prop} (sourceId : String) :
    Only P (requireActiveSource sourceId) := (only_read _).bind fun _ => only_ensure _ _

theorem only_registerIntelligenceSource (input : IntelligenceSourceInput) (now : Nat) :
    Only Submits (registerIntelligenceSource input now) := by
  unfold registerIntelligenceSource
  refine (only_lift _).bind fun _ => (only_lift _).bind fun _ => (only_lift _).bind fun _ => ?_
  refine (only_lift _).bind fun _ => (only_lift _).bind fun _ => (only_lift _).bind fun _ => ?_
  exact (only_write trivial).bind fun _ => only_pure _

variable (config : Config)

theorem only_submitEntityLabel (input : EntityLabelSubmission) (now : Nat) :
    Only Submits (submitEntityLabel config input now) := by
  unfold submitEntityLabel
  refine (only_lift _).bind fun _ => (only_lift _).bind fun _ => (only_lift _).bind fun _ => ?_
  refine (only_lift _).bind fun _ => (only_lift _).bind fun _ => (only_lift _).bind fun _ => ?_
  refine (only_ensure _ _).bind fun _ => (only_lift _).bind fun _ => (only_ensure _ _).bind fun _ => ?_
  refine (only_requireActiveSource _).bind fun _ => (only_lift _).bind fun _ => ?_
  exact (only_write trivial).bind fun _ => only_pure _

theorem only_submitClusterClaim (row : AddressClusterClaimRow) :
    Only Submits (submitClusterClaim config row) := by
  unfold submitClusterClaim
  refine (only_lift _).bind fun _ => (only_requireActiveSource _).bind fun _ => ?_
  exact (only_lift _).bind fun _ => only_write trivial

theorem only_submitClusterClaims (rows : List AddressClusterClaimRow) :
    Only Submits (submitClusterClaims config rows) := by
  unfold submitClusterClaims
  split
  · exact only_pure 0
  · refine (Only.forM only_requireActiveSource _).bind fun _ => (only_lift _).bind fun _ => ?_
    exact (only_write trivial).bind fun _ => only_pure _

theorem attributed_submits {db : Database} {w : Insert} (h : Attributed db) (hw : Submits w) :
    Attributed (LogStore.append db w) := by
  cases w with
  | intelligenceSources row => exact ⟨h.entity, h.exchange, h.seed, h.membership⟩
  | entityLabels row => exact ⟨h.entity, h.exchange, h.seed, h.membership⟩
  | addressClusterClaims rows => exact ⟨h.entity, h.exchange, h.seed, h.membership⟩
  | _ => cases hw

theorem attributed_step {db : Database} {op : Operation} {ws : List Insert} (h : Attributed db)
    (hwrites : Writes (op.program config) db ws) (horderly : Orderly db op ws) :
    Attributed (replay db ws) := by
  have hsubmission : Only Submits (op.program config) → Attributed (replay db ws) := fun honly =>
    replay_keeps (fun w hw t ht => attributed_submits ht (honly.writes hwrites w hw)) h
  cases op with
  | source input now =>
    exact hsubmission ((only_registerIntelligenceSource input now).bind fun _ => only_pure ())
  | label input now =>
    exact hsubmission ((only_submitEntityLabel config input now).bind fun _ => only_pure ())
  | cluster row => exact hsubmission (only_submitClusterClaim config row)
  | clusters rows =>
    exact hsubmission ((only_submitClusterClaims config rows).bind fun _ => only_pure ())
  | review input reviewId now =>
    exact attributed_review h (hwrites.of_quiet_tail fun _ => quiet_pure _) horderly

theorem attributed_empty : Attributed Database.empty := by
  refine ⟨?_, ?_, ?_, ?_⟩
  all_goals intro row hrow; cases hrow

end

/-- Where every rejection is orderly, what is active is approved between the
operations of a run, and a completed rejection retires the rows of its claim and
changes no others. -/
theorem rows_attributed (config : Config) {events : List (Event Operation Insert)}
    (h : Trace (fun db op ws => Writes (op.program config) db ws ∧ Orderly db op ws) Database.empty
      events) :
    Attributed (replayEvents Database.empty events) ∧
      ∀ input reviewId now subject row ws, Decides input "REJECTED" subject →
        Returns (reviewIntelligenceSubject input reviewId now) (replayEvents Database.empty events)
          ws row →
        Orderly (replayEvents Database.empty events) (.review input reviewId now) ws →
          AllClear subject (replay (replayEvents Database.empty events) ws) ∧
            AllSame subject (replayEvents Database.empty events)
              (replay (replayEvents Database.empty events) ws) := by
  constructor
  · refine h.invariant attributed_empty ?_
    rintro db op ws hdb ⟨hwrites, horderly⟩
    exact attributed_step config hdb hwrites horderly
  · intro input reviewId now subject row ws hdecides hreturns horderly
    exact review_retires hdecides (horderly subject hdecides).1 hreturns

/-! ## Two claims on one membership -/

def sampleConfig : Config := ⟨id, some⟩

def sampleSource : IntelligenceSourceInput :=
  ⟨"osint", "OSINT", "ANALYST", "HIGH", "", "", true, "ops"⟩

def sampleClaim (claimId : String) : AddressClusterClaimRow where
  claimId := claimId
  address := "TX"
  clusterId := "c"
  clusterType := "SERVICE"
  addressRole := "DEPOSIT"
  claimMethod := "MANUAL"
  confidence := 1
  source := "osint"
  sourceRecordId := claimId
  evidenceTxHashes := []
  evidenceAddresses := []
  evidenceJson := ""
  supersedesClaimId := ""
  reviewStatus := "PENDING"
  createdBy := "analyst"
  createdAtUnixMs := 1

def sampleReview (claimId decision : String) : IntelligenceReviewInput :=
  ⟨"CLUSTER_CLAIM", claimId, decision, "reviewer", "", []⟩

def sampleRun (operations : List (Operation × Nat)) : List (Event Operation Insert) :=
  eventsOf (Operation.program sampleConfig) Database.empty operations

theorem sampleRun_writes (operations : List (Operation × Nat)) :
    Trace (fun db op ws => Writes (Operation.program sampleConfig op) db ws) Database.empty
      (sampleRun operations) :=
  trace_eventsOf (Operation.program sampleConfig) .nil operations

/-- Two claims of one membership, of which the first is approved. -/
def sampleEvents : List (Event Operation Insert) :=
  sampleRun [(.source sampleSource 1, 1), (.cluster (sampleClaim "A"), 1),
    (.cluster (sampleClaim "B"), 1), (.review (sampleReview "A" "APPROVED") "r1" 2, 4)]

def sampleStore : Database := replayEvents Database.empty sampleEvents

theorem sample_decides {claimId decision : String} (h : decision = "APPROVED" ∨ decision = "REJECTED") :
    Decides (sampleReview claimId decision) decision (.cluster claimId) := by
  have htype : normalizeEnum "subject_type" "CLUSTER_CLAIM" ["ENTITY_LABEL", "CLUSTER_CLAIM"] =
    .ok "CLUSTER_CLAIM" := by decide +kernel
  have happroved : normalizeEnum "decision" "APPROVED" ["APPROVED", "REJECTED"] = .ok "APPROVED" := by
    decide +kernel
  have hrejected : normalizeEnum "decision" "REJECTED" ["APPROVED", "REJECTED"] = .ok "REJECTED" := by
    decide +kernel
  rcases h with rfl | rfl
  · exact ⟨htype, rfl, happroved⟩
  · exact ⟨htype, rfl, hrejected⟩

theorem sampleEvents_orderly :
    Trace (fun db op ws => Writes (Operation.program sampleConfig op) db ws ∧ Orderly db op ws)
      Database.empty sampleEvents := by
  refine (sampleRun_writes _).strengthen fun e he db hwrites => ⟨hwrites, ?_⟩
  simp only [sampleRun, eventsOf, List.mem_cons, List.not_mem_nil, or_false] at he
  rcases he with rfl | rfl | rfl | rfl
  · trivial
  · trivial
  · trivial
  · intro subject hdecides
    have hdecision := (hdecides.unique (sample_decides (Or.inl rfl))).2
    exact absurd hdecision (by decide)

def sampleRow (claimId : String) : IntelligenceReviewRow :=
  ⟨"r2", "CLUSTER_CLAIM", claimId, "REJECTED", "reviewer", "", [], 3⟩

/-- The inserts of a complete rejection after that. -/
def sampleRejection (claimId : String) : List Insert :=
  ((reviewIntelligenceSubject (sampleReview claimId "REJECTED") "r2" 3).exec sampleStore).1

theorem sampleRejection_returns {claimId : String} (h : claimId = "A" ∨ claimId = "B") :
    Returns (reviewIntelligenceSubject (sampleReview claimId "REJECTED") "r2" 3) sampleStore
      (sampleRejection claimId) (sampleRow claimId) := by
  have hrow : ((reviewIntelligenceSubject (sampleReview claimId "REJECTED") "r2" 3).exec
      sampleStore).2.toOption = some (sampleRow claimId) := by
    rcases h with rfl | rfl
    · decide +kernel
    · decide +kernel
  refine Prod.ext rfl ?_
  cases hexec : ((reviewIntelligenceSubject (sampleReview claimId "REJECTED") "r2" 3).exec
      sampleStore).2 with
  | error e =>
    rw [hexec] at hrow
    cases hrow
  | ok row =>
    rw [hexec] at hrow
    exact congrArg _ (Option.some.inj hrow)

theorem sample_reaches : Reaches sampleStore (.cluster "A") := by
  intro claim hfind
  have hloaded : ((currentClusterClaims sampleStore).find? fun claim => claim.claimId = "A").map
      (fun claim => (claim.claimId, claim.address, claim.clusterId)) = some ("A", "TX", "c") := by
    decide +kernel
  rw [hfind] at hloaded
  obtain ⟨hid, hplace⟩ := Prod.mk.inj (Option.some.inj hloaded)
  obtain ⟨haddress, hcluster⟩ := Prod.mk.inj hplace
  have hexchanges : currentExchanges sampleStore = [] := by decide +kernel
  have hmembers : ∀ row ∈ currentMemberships sampleStore,
      membershipKey row = ("TX", "c") ∧ row.sourceClaimId = "A" := by decide +kernel
  refine ⟨?_, ?_, ?_⟩
  · intro row hrow
    have hnone : row ∈ currentExchanges sampleStore := hrow
    rw [hexchanges] at hnone
    cases hnone
  · intro row hrow _ _
    rw [haddress, hcluster]
    exact ⟨(hmembers row hrow).1, trivial⟩
  · intro row hrow _
    exact (hmembers row hrow).2.trans hid.symm

/-- The approved claim is active, and its rejection retires it. -/
theorem sample_attributed : Attributed sampleStore ∧ (currentMemberships sampleStore).length = 1 ∧
    AllClear (.cluster "A") (replay sampleStore (sampleRejection "A")) := by
  obtain ⟨hattributed, hretires⟩ := rows_attributed sampleConfig sampleEvents_orderly
  have hreturns := sampleRejection_returns (Or.inl rfl)
  have horderly : Orderly sampleStore (.review (sampleReview "A" "REJECTED") "r2" 3)
      (sampleRejection "A") := by
    intro subject hdecides
    obtain ⟨rfl, _⟩ := hdecides.unique (sample_decides (Or.inr rfl))
    exact ⟨sample_reaches, Or.inr (Or.inr ⟨_, hreturns⟩)⟩
  exact ⟨hattributed, by decide +kernel,
    (hretires _ _ _ _ _ _ (sample_decides (Or.inr rfl)) hreturns horderly).1⟩

/-- The rejection of the second claim replaces the membership row of the first. -/
theorem rejection_replaces_other : ¬∀ config events,
    Trace (fun db op ws => Writes (Operation.program config op) db ws) Database.empty events →
      Attributed (replayEvents Database.empty events) ∧
        ∀ input reviewId now subject row ws, Decides input "REJECTED" subject →
          Returns (reviewIntelligenceSubject input reviewId now) (replayEvents Database.empty events)
            ws row →
            AllClear subject (replay (replayEvents Database.empty events) ws) ∧
              AllSame subject (replayEvents Database.empty events)
                (replay (replayEvents Database.empty events) ws) := by
  intro h
  have hsame : AllSame (.cluster "B") sampleStore (replay sampleStore (sampleRejection "B")) :=
    ((h sampleConfig sampleEvents (sampleRun_writes _)).2 _ _ _ _ _ _
      (sample_decides (Or.inr rfl)) (sampleRejection_returns (Or.inr rfl))).2
  have hbefore : ∃ row ∈ currentMemberships sampleStore, row.sourceClaimId = "A" := by decide +kernel
  have hafter : ∀ row ∈ currentMemberships (replay sampleStore (sampleRejection "B")),
      row.sourceClaimId = "B" := by decide +kernel
  obtain ⟨row, hrow, hsource⟩ := hbefore
  have hother : ¬memberships.names row (.cluster "B") := by
    intro hnames
    have hid : "B" = row.sourceClaimId := Subject.cluster.inj hnames
    rw [hsource] at hid
    exact absurd hid (by decide)
  have hkept := (hsame.membership row hother).mpr hrow
  have hchanged : row.sourceClaimId = "B" := hafter row hkept
  rw [hsource] at hchanged
  exact absurd hchanged (by decide)

end AmlReal.Tron.ReviewedAttribution
