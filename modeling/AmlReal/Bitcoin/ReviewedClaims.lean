import AmlReal.Bitcoin.Intelligence

/-! # What an active claim stands for

In every run of the intelligence operations, wherever they stop: a claim is
reported active only by the approval that wrote its current row, and nothing
has touched the claim since. All rests on revisions: every row is written above
all rows before it, in whichever of the three tables. -/

namespace AmlReal.Bitcoin.ReviewedClaims
open AmlReal.Foundations.Floats AmlReal.Foundations.Json AmlReal.Foundations.LatestRows
open AmlReal.Foundations.StoreProgram
open AmlReal.Foundations.Checks (context context_ok ensure_ok bind_ok)
open AmlReal.Warehouse.Values AmlReal.Bitcoin.Intelligence

/-! ## What inserts add -/

def claimRows (ws : List Insert) : List ClaimRow := ws.flatMap fun
  | .claims rows => rows
  | _ => []

def reviewRows (ws : List Insert) : List ReviewRow := ws.flatMap fun
  | .reviews rows => rows
  | _ => []

section
variable {db : Store} {ws : List Insert}

theorem replay_claims (db : Store) (ws : List Insert) :
    (replay db ws).claims = db.claims ++ claimRows ws := by
  induction ws generalizing db with
  | nil => simp [claimRows]
  | cons w ws ih =>
    rw [replay_cons, ih]
    cases w <;> simp [LogStore.append, claimRows]

theorem replay_reviews (db : Store) (ws : List Insert) :
    (replay db ws).reviews = db.reviews ++ reviewRows ws := by
  induction ws generalizing db with
  | nil => simp [reviewRows]
  | cons w ws ih =>
    rw [replay_cons, ih]
    cases w <;> simp [LogStore.append, reviewRows]

/-! ## Revisions -/

theorem le_foldr_max {x : Nat} {xs : List Nat} (h : x ∈ xs) : x ≤ xs.foldr max 0 := by
  induction xs with
  | nil => cases h
  | cons y ys ih =>
    rcases List.mem_cons.mp h with rfl | h
    · exact Nat.le_max_left ..
    · exact (ih h).trans (Nat.le_max_right ..)

theorem claim_le_max {claim : ClaimRow} (h : claim ∈ db.claims)
    (hnetwork : claim.networkId = Network.bitcoin.id) : claim.revision ≤ maxRevision db :=
  le_foldr_max (List.mem_append_left _ (List.mem_append_right _
    (List.mem_map_of_mem (List.mem_filter.mpr ⟨h, by simpa using hnetwork⟩))))

theorem review_le_max {review : ReviewRow} (h : review ∈ db.reviews)
    (hnetwork : review.networkId = Network.bitcoin.id) : review.revision ≤ maxRevision db :=
  le_foldr_max (List.mem_append_right _
    (List.mem_map_of_mem (List.mem_filter.mpr ⟨h, by simpa using hnetwork⟩)))

/-! ## The parts of an operation -/

theorem quiet_next (timestamp : Nat) : Quiet (next timestamp) :=
  (quiet_read _).bind fun _ => (quiet_lift _).bind fun _ => quiet_pure _

theorem returns_next {timestamp revision : Nat} (h : Returns (next timestamp) db ws revision) :
    maxRevision db < revision := by
  obtain ⟨_, _, _, rfl, hread, h⟩ := h.bind
  obtain ⟨rfl, rfl⟩ := returns_read hread
  obtain ⟨_, above, _, rfl, hnext, h⟩ := h.bind
  obtain ⟨rfl, habove⟩ := returns_lift hnext
  obtain ⟨_, rfl⟩ := returns_pure h
  have hadd := (checkedAdd_eq_some (context_ok habove)).1
  have := Nat.le_max_left above timestamp
  omega

section
variable {ρ : Type} {view : Store → List ρ} {matching : ρ → Bool}

theorem quiet_current : Quiet (current view matching) :=
  (quiet_read _).bind fun _ => (quiet_ensure _ _).bind fun _ => quiet_pure _

theorem returns_current {row : Option ρ} (h : Returns (current view matching) db ws row) :
    ∀ r ∈ row, r ∈ view db ∧ matching r = true := by
  obtain ⟨_, rows, _, rfl, hread, h⟩ := h.bind
  obtain ⟨rfl, rfl⟩ := returns_read hread
  obtain ⟨_, _, _, rfl, hone, h⟩ := h.bind
  obtain ⟨rfl, _⟩ := returns_ensure hone
  obtain ⟨_, rfl⟩ := returns_pure h
  intro r hr
  exact List.mem_filter.mp (List.mem_of_mem_take (List.mem_of_mem_head? hr))

variable {validateRow : ρ → Except String Unit} {networkId : ρ → String} {chunk : List ρ → Insert}

theorem writes_insert {rows : List ρ} (h : Writes (insert validateRow networkId chunk rows) db ws) :
    ws <+: (chunks 1000 rows).map chunk := by
  rcases writes_lift h with rfl | ⟨_, _, h⟩
  · exact List.nil_prefix
  have h := writes_read h
  rcases writes_ensure h with rfl | ⟨_, h⟩
  · exact List.nil_prefix
  · exact writes_forM_write h

theorem returns_insert {rows : List ρ} {u : Unit}
    (h : Returns (insert validateRow networkId chunk rows) db ws u) :
    ws = (chunks 1000 rows).map chunk := by
  obtain ⟨_, _, _, rfl, hrules, h⟩ := h.bind
  obtain ⟨rfl, _⟩ := returns_lift hrules
  obtain ⟨_, _, _, rfl, hread, h⟩ := h.bind
  obtain ⟨rfl, _⟩ := returns_read hread
  obtain ⟨_, _, _, rfl, hidentity, h⟩ := h.bind
  obtain ⟨rfl, _⟩ := returns_ensure hidentity
  exact returns_forM_write h

end

end

/-! ## What an operation may have written -/

/-- A row of an import: pending, of Bitcoin, above all rows. -/
structure Pending (db : Store) (row : ClaimRow) : Prop where
  status : row.reviewStatus = "pending"
  networkId : row.networkId = Network.bitcoin.id
  fresh : maxRevision db < row.revision

/-- A review found its claim as the reviewer had seen it. -/
structure Reviewing (db : Store) (decision : Review) (claim : ClaimRow) (revision : Nat) :
    Prop where
  current : claim ∈ claimsCurrent db
  networkId : claim.networkId = Network.bitcoin.id
  claimId : claim.claimId = decision.claimId
  seen : decision.expectedRevision = claim.revision.repr
  fresh : maxRevision db < revision

/-- The inserts that an operation has made when it stops. -/
inductive Stage (db : Store) : Operation → List Insert → Prop
  | idle (op : Operation) : Stage db op []
  | registered {source : Source} {dryRun : Bool} {clock : Nat → Nat} (row : SourceRow) :
      Stage db (.register source dryRun clock) [.sources [row]]
  | imported {claims : List Claim} {dryRun : Bool} {clock : Nat → Nat} {cs : List (List ClaimRow)}
      (pending : ∀ row ∈ cs.flatten, Pending db row) :
      Stage db (.importClaims claims dryRun clock) (cs.map .claims)
  | decided {decision : Review} {dryRun : Bool} {clock : Nat → Nat} {claim : ClaimRow}
      {revision now : Nat} (reviewing : Reviewing db decision claim revision) :
      Stage db (.review decision dryRun clock) [.reviews [decision.row claim revision now]]
  | reviewed {decision : Review} {dryRun : Bool} {clock : Nat → Nat} {claim : ClaimRow}
      {revision now : Nat} (reviewing : Reviewing db decision claim revision) :
      Stage db (.review decision dryRun clock)
        [.reviews [decision.row claim revision now], .claims [decision.apply claim revision now]]

section
variable {parsers : Parsers} {db : Store} {ws : List Insert}

theorem stage_register {source : Source} {dryRun : Bool} {clock : Nat → Nat}
    (h : Writes (register parsers source dryRun clock) db ws) :
    Stage db (.register source dryRun clock) ws := by
  rcases writes_lift h with rfl | ⟨_, _, h⟩
  · exact .idle _
  rcases writes_quiet quiet_current h with rfl | ⟨old, _, h⟩
  · exact .idle _
  rcases writes_lift h with rfl | ⟨_, _, h⟩
  · exact .idle _
  rcases writes_quiet (quiet_next _) h with rfl | ⟨revision, _, h⟩
  · exact .idle _
  rcases writes_lift h with rfl | ⟨_, _, h⟩
  · exact .idle _
  rcases writes_when (h.of_quiet_tail fun _ => quiet_pure _) with ⟨_, h⟩ | ⟨_, rfl⟩
  · rcases List.prefix_cons_iff.mp (writes_insert h) with rfl | ⟨rest, rfl, hrest⟩
    · exact .idle _
    · obtain rfl := List.prefix_nil.mp hrest
      exact .registered _
  · exact .idle _

theorem mem_checkClaims {now : Nat} {ids : List String} {claims checked : List Claim}
    (h : checkClaims parsers now ids claims = .ok checked) :
    ∀ claim ∈ checked, claim.networkId = Network.bitcoin.id := by
  induction claims generalizing ids checked with
  | nil => cases h; intro claim hclaim; cases hclaim
  | cons first rest ih =>
    obtain ⟨valid, hvalid, h⟩ := bind_ok h
    obtain ⟨_, _, h⟩ := bind_ok h
    obtain ⟨others, hothers, h⟩ := bind_ok h
    cases h
    intro claim hclaim
    rcases List.mem_cons.mp hclaim with rfl | hclaim
    · obtain ⟨_, hnetwork, hvalid⟩ := bind_ok hvalid
      obtain ⟨_, _, hvalid⟩ := bind_ok hvalid
      obtain ⟨_, _, hvalid⟩ := bind_ok hvalid
      obtain ⟨_, _, hvalid⟩ := bind_ok hvalid
      obtain ⟨_, _, hvalid⟩ := bind_ok hvalid
      obtain ⟨_, _, hvalid⟩ := bind_ok hvalid
      obtain ⟨_, _, hvalid⟩ := bind_ok hvalid
      obtain ⟨_, _, hvalid⟩ := bind_ok hvalid
      obtain ⟨_, _, hvalid⟩ := bind_ok hvalid
      obtain ⟨_, _, hvalid⟩ := bind_ok hvalid
      obtain ⟨_, _, hvalid⟩ := bind_ok hvalid
      obtain ⟨_, _, hvalid⟩ := bind_ok hvalid
      cases hvalid
      exact ensure_ok hnetwork
    · exact ih hothers claim hclaim

theorem quiet_pendingRows (now : Nat) : ∀ (revision : Nat) (claims : List Claim),
    Quiet (pendingRows now revision claims) := by
  intro revision claims
  induction claims generalizing revision with
  | nil => exact quiet_pure _
  | cons claim rest ih =>
    refine quiet_current.bind fun _ => (quiet_lift _).bind fun _ => (quiet_ensure _ _).bind fun _ => ?_
    refine quiet_current.bind fun _ => (quiet_lift _).bind fun _ => (quiet_lift _).bind fun _ => ?_
    exact (quiet_lift _).bind fun _ => (ih _).bind fun _ => quiet_pure _

/-- The rows of an import are pending, at the revision given to it or above. -/
theorem returns_pendingRows {now revision : Nat} {claims : List Claim} {rows : List ClaimRow}
    (hnetwork : ∀ claim ∈ claims, claim.networkId = Network.bitcoin.id)
    (h : Returns (pendingRows now revision claims) db ws rows) :
    ∀ row ∈ rows, row.reviewStatus = "pending" ∧ row.networkId = Network.bitcoin.id ∧
      revision ≤ row.revision := by
  induction claims generalizing revision rows ws with
  | nil =>
    obtain ⟨_, rfl⟩ := returns_pure h
    intro row hrow; cases hrow
  | cons claim rest ih =>
    obtain ⟨_, _, _, rfl, hsource, h⟩ := h.bind
    obtain rfl := quiet_current.returns hsource
    obtain ⟨_, _, _, rfl, hknown, h⟩ := h.bind
    obtain ⟨rfl, _⟩ := returns_lift hknown
    obtain ⟨_, _, _, rfl, hactive, h⟩ := h.bind
    obtain ⟨rfl, _⟩ := returns_ensure hactive
    obtain ⟨_, old, _, rfl, hold, h⟩ := h.bind
    obtain rfl := quiet_current.returns hold
    obtain ⟨_, _, _, rfl, hexpected, h⟩ := h.bind
    obtain ⟨rfl, _⟩ := returns_lift hexpected
    obtain ⟨_, _, _, rfl, hrules, h⟩ := h.bind
    obtain ⟨rfl, _⟩ := returns_lift hrules
    obtain ⟨_, following, _, rfl, hfollowing, h⟩ := h.bind
    obtain ⟨rfl, habove⟩ := returns_lift hfollowing
    obtain ⟨_, others, _, rfl, hothers, h⟩ := h.bind
    obtain ⟨_, rfl⟩ := returns_pure h
    have hnext := (checkedAdd_eq_some (context_ok habove)).1
    intro row hrow
    rcases List.mem_cons.mp hrow with rfl | hrow
    · exact ⟨rfl, hnetwork claim (by simp), Nat.le_refl _⟩
    · have hrest := ih (fun c hc => hnetwork c (by simp [hc])) hothers row hrow
      exact ⟨hrest.1, hrest.2.1, by omega⟩

theorem stage_import {claims : List Claim} {dryRun : Bool} {clock : Nat → Nat}
    (h : Writes (importClaims parsers claims dryRun clock) db ws) :
    Stage db (.importClaims claims dryRun clock) ws := by
  rcases writes_ensure h with rfl | ⟨_, h⟩
  · exact .idle _
  rcases writes_lift h with rfl | ⟨checked, hchecked, h⟩
  · exact .idle _
  rcases writes_quiet (quiet_next _) h with rfl | ⟨revision, hrevision, h⟩
  · exact .idle _
  rcases writes_quiet (quiet_pendingRows _ _ _) h with rfl | ⟨rows, hrows, h⟩
  · exact .idle _
  have hpending := returns_pendingRows (mem_checkClaims hchecked) hrows
  rcases writes_when (h.of_quiet_tail fun _ => quiet_pure _) with ⟨_, h⟩ | ⟨_, rfl⟩
  · obtain ⟨cs, hcs, rfl⟩ := List.prefix_map_iff.mp (writes_insert h)
    refine .imported fun row hrow => ?_
    have hmem := (flatten_prefix_of_chunks (by decide) hcs).subset hrow
    obtain ⟨hstatus, hnetwork, hle⟩ := hpending row hmem
    exact ⟨hstatus, hnetwork, (returns_next hrevision).trans_le hle⟩
  · exact .idle _

theorem stage_review {decision : Review} {dryRun : Bool} {clock : Nat → Nat}
    (h : Writes (review decision dryRun clock) db ws) :
    Stage db (.review decision dryRun clock) ws := by
  rcases writes_lift h with rfl | ⟨_, _, h⟩
  · exact .idle _
  rcases writes_quiet quiet_current h with rfl | ⟨found, hfound, h⟩
  · exact .idle _
  rcases writes_lift h with rfl | ⟨claim, hclaim, h⟩
  · exact .idle _
  rcases writes_lift h with rfl | ⟨_, hexpected, h⟩
  · exact .idle _
  rcases writes_quiet quiet_current h with rfl | ⟨source, _, h⟩
  · exact .idle _
  rcases writes_lift h with rfl | ⟨_, _, h⟩
  · exact .idle _
  rcases writes_quiet (quiet_next _) h with rfl | ⟨revision, hrevision, h⟩
  · exact .idle _
  rcases writes_lift h with rfl | ⟨_, _, h⟩
  · exact .idle _
  rcases writes_lift h with rfl | ⟨_, _, h⟩
  · exact .idle _
  have hcurrent := returns_current hfound claim (context_ok hclaim)
  simp only [decide_eq_true_eq] at hcurrent
  obtain ⟨hmem, hnetwork, hid⟩ := hcurrent
  have hreviewing : Reviewing db decision claim revision :=
    ⟨hmem, hnetwork, hid, Option.some.inj (ensure_ok hexpected), returns_next hrevision⟩
  rcases writes_when (h.of_quiet_tail fun _ => quiet_pure _) with ⟨_, h⟩ | ⟨_, rfl⟩
  · rcases h.bind with h | ⟨first, _, rest, rfl, hfirst, h⟩
    · -- stopped in the insert of the review
      rcases List.prefix_cons_iff.mp (writes_insert h) with rfl | ⟨rest, rfl, hrest⟩
      · exact .idle _
      · obtain rfl := List.prefix_nil.mp hrest
        exact .decided hreviewing
    · -- the review is written; the claim may be
      obtain rfl := returns_insert hfirst
      rcases List.prefix_cons_iff.mp (writes_insert h) with rfl | ⟨rest, rfl, hrest⟩
      · exact .decided hreviewing
      · obtain rfl := List.prefix_nil.mp hrest
        exact .reviewed hreviewing
  · exact .idle _

/-- Some run of the operation on `db` may have stopped after the inserts `ws`. -/
def Stopped (parsers : Parsers) (db : Store) (op : Operation) (ws : List Insert) : Prop :=
  Writes (op.program parsers) db ws

theorem stage_of_stopped {op : Operation} (h : Stopped parsers db op ws) : Stage db op ws := by
  cases op with
  | register source dryRun clock => exact stage_register h
  | importClaims claims dryRun clock => exact stage_import h
  | review decision dryRun clock => exact stage_review h

end

/-! ## What holds of every store that a run leaves -/

structure Sound (db : Store) : Prop where
  claims : ∀ c ∈ db.claims, c.networkId = Network.bitcoin.id
  reviews : ∀ r ∈ db.reviews, r.networkId = Network.bitcoin.id ∧
    r.subjectType = "intelligence_claim" ∧ r.reviewId = "review-" ++ r.revision.repr ∧
    r.subjectRevision = some r.revision
  distinct : (db.reviews.map ReviewRow.revision).Nodup

section
variable {db : Store} {op : Operation} {ws : List Insert}

theorem claim_of_stage (h : Stage db op ws) {row : ClaimRow} (hrow : row ∈ claimRows ws) :
    row.networkId = Network.bitcoin.id ∧ maxRevision db < row.revision := by
  cases h with
  | idle => cases hrow
  | registered => simp [claimRows] at hrow
  | @imported _ _ _ cs pending =>
    have hmem : row ∈ cs.flatten := by simpa [claimRows, List.flatMap_map] using hrow
    exact ⟨(pending row hmem).networkId, (pending row hmem).fresh⟩
  | decided => simp [claimRows] at hrow
  | reviewed reviewing =>
    obtain rfl : row = _ := by simpa [claimRows] using hrow
    exact ⟨reviewing.networkId, reviewing.fresh⟩

theorem review_of_stage (h : Stage db op ws) : reviewRows ws = [] ∨
    ∃ decision claim revision now, reviewRows ws = [Review.row decision claim revision now] ∧
      maxRevision db < revision := by
  cases h with
  | idle => exact Or.inl rfl
  | registered => exact Or.inl rfl
  | imported => exact Or.inl (by simp [reviewRows])
  | decided reviewing => exact Or.inr ⟨_, _, _, _, rfl, reviewing.fresh⟩
  | reviewed reviewing => exact Or.inr ⟨_, _, _, _, rfl, reviewing.fresh⟩

theorem Sound.step (hs : Sound db) (h : Stage db op ws) : Sound (replay db ws) where
  claims := by
    intro c hc
    rw [replay_claims] at hc
    exact (List.mem_append.mp hc).elim (hs.claims c) fun hc => (claim_of_stage h hc).1
  reviews := by
    intro r hr
    rw [replay_reviews] at hr
    rcases List.mem_append.mp hr with hr | hr
    · exact hs.reviews r hr
    · rcases review_of_stage h with hnone | ⟨decision, claim, revision, now, hone, _⟩
      · rw [hnone] at hr; cases hr
      · rw [hone] at hr
        obtain rfl := List.mem_singleton.mp hr
        exact ⟨rfl, rfl, rfl, rfl⟩
  distinct := by
    rw [replay_reviews]
    rcases review_of_stage h with hnone | ⟨decision, claim, revision, now, hone, hfresh⟩
    · rw [hnone, List.append_nil]; exact hs.distinct
    · rw [hone, List.map_append, List.nodup_append]
      refine ⟨hs.distinct, by simp, fun a ha b hb => ?_⟩
      obtain ⟨r, hr, rfl⟩ := List.mem_map.mp ha
      obtain rfl := List.mem_singleton.mp hb
      have hle := review_le_max hr (hs.reviews r hr).1
      exact Nat.ne_of_lt (hle.trans_lt hfresh)

/-- No two reviews share their identifier, so every review is current. -/
theorem Sound.current (hs : Sound db) {r : ReviewRow} (hr : r ∈ db.reviews) :
    r ∈ reviewsCurrent db := by
  refine mem_latest_of_greatest hr fun other hother hkey hne => ?_
  have hid := (Prod.mk.inj hkey).2
  rw [(hs.reviews other hother).2.2.1, (hs.reviews r hr).2.2.1] at hid
  have hrevision : other.revision = r.revision := by
    have := congrArg String.toList hid
    rw [String.toList_append, String.toList_append] at this
    exact decimal_inj (String.toList_inj.mp (List.append_cancel_left this))
  exact absurd (List.inj_on_of_nodup_map hs.distinct hother hr hrevision) hne

end

/-- The runs of a warehouse's intelligence operations from its installation on. -/
abbrev Runs (parsers : Parsers) (identity : String) : List (Event Operation Insert) → Prop :=
  Trace (Stopped parsers) (Store.empty identity)

/-- The store after a run. -/
def after (identity : String) (events : List (Event Operation Insert)) : Store :=
  replayEvents (Store.empty identity) events

section
variable {parsers : Parsers} {identity : String} {events before later : List (Event Operation Insert)}
  {e : Event Operation Insert}

theorem sound_after (h : Runs parsers identity events) : Sound (after identity events) := by
  refine h.invariant ⟨?_, ?_, List.nodup_nil⟩ fun s op ws hs hws => hs.step (stage_of_stopped hws)
  · intro c hc; cases hc
  · intro r hr; cases hr

theorem stage_split (h : Runs parsers identity (before ++ e :: later)) :
    Stage (after identity before) e.operation e.inserts := stage_of_stopped h.split.2

theorem mem_claims_after {c : ClaimRow} : c ∈ (after identity events).claims ↔
    ∃ e ∈ events, c ∈ claimRows e.inserts := by
  unfold after replayEvents
  rw [replay_claims]
  simp [Store.empty, claimRows, List.flatMap_assoc]

theorem mem_reviews_after {r : ReviewRow} : r ∈ (after identity events).reviews ↔
    ∃ e ∈ events, r ∈ reviewRows e.inserts := by
  unfold after replayEvents
  rw [replay_reviews]
  simp [Store.empty, reviewRows, List.flatMap_assoc]

/-- Rows of later events are above every row that was there. -/
theorem later_claim (bound : Nat) (h : Runs parsers identity (before ++ e :: later))
    (hbound : ∀ tail, Runs parsers identity (before ++ e :: tail) →
      bound ≤ maxRevision (after identity (before ++ e :: tail)))
    {e' : Event Operation Insert} (he' : e' ∈ later) :
    (∀ row ∈ claimRows e'.inserts, bound < row.revision) ∧
      ∀ row ∈ reviewRows e'.inserts, bound < row.revision := by
  obtain ⟨tail, rest, rfl⟩ := List.append_of_mem he'
  rw [← List.cons_append, ← List.append_assoc] at h
  have hle := hbound tail h.split.1
  refine ⟨fun row hrow => hle.trans_lt (claim_of_stage (stage_split h) hrow).2, fun row hrow => ?_⟩
  rcases review_of_stage (stage_split h) with hnone | ⟨decision, claim, revision, now, hone, hlt⟩
  · rw [hnone] at hrow; cases hrow
  · rw [hone] at hrow
    obtain rfl := List.mem_singleton.mp hrow
    exact hle.trans_lt hlt

/-! ## Approvals -/

/-- The event of a run that approved a claim: a review that wrote both its rows,
the claim's current one among them, with nothing on the claim after it. -/
structure Approval (parsers : Parsers) (identity : String)
    (events before later : List (Event Operation Insert)) (decision : Review) (dryRun : Bool)
    (clock : Nat → Nat) (row : ReviewRow) (claim : ClaimRow) : Prop where
  split : events =
    before ++ ⟨.review decision dryRun clock, [.reviews [row], .claims [claim]]⟩ :: later
  completed : [.reviews [row], .claims [claim]] =
    ((review decision dryRun clock).exec (after identity before)).1
  decided : decision.decision = "approved" ∧ decision.claimId = claim.claimId
  row_eq : row.subjectId = claim.claimId ∧ row.decision = "approved" ∧
    row.revision = claim.revision
  greatest : ∀ r ∈ (after identity events).reviews, r.subjectId = claim.claimId → r ≠ row →
    r.revision < row.revision
  untouched : ∀ e ∈ later, (∀ c ∈ claimRows e.inserts, c.claimId ≠ claim.claimId) ∧
    ∀ r ∈ reviewRows e.inserts, r.subjectId ≠ claim.claimId

def Approved (parsers : Parsers) (identity : String) (events : List (Event Operation Insert))
    (claim : ClaimRow) : Prop :=
  ∃ before later decision dryRun clock row,
    Approval parsers identity events before later decision dryRun clock row claim

/-- A review that wrote anything had the claim before it that the reviewer had seen. -/
def AppliedAsSeen (identity : String) (before : List (Event Operation Insert)) (decision : Review)
    (ws : List Insert) : Prop :=
  ∃ claim ∈ claimsCurrent (after identity before), claim.claimId = decision.claimId ∧
    decision.expectedRevision = claim.revision.repr ∧
    (∀ r ∈ reviewRows ws, ∃ revision now, r = decision.row claim revision now) ∧
    ∀ c ∈ claimRows ws, ∃ revision now, c = decision.apply claim revision now

theorem active_eq {claim : ClaimRow} {source : Option SourceRow} {review : Option ReviewRow}
    {now : Nat} (h : active claim source review now = true) :
    claim.reviewStatus = "approved" ∧ ∃ r, review = some r ∧ r.decision = "approved" ∧
      r.subjectRevision = some claim.revision := by
  unfold active at h
  split at h
  · simp only [decide_eq_true_eq] at h
    exact ⟨h.1, _, rfl, h.2.2.2.1, h.2.2.2.2.1⟩
  · cases h

/-- The event that wrote an approved row is a review that wrote both its rows. -/
theorem writer_of_approved (h : Runs parsers identity events) {claim : ClaimRow}
    (hclaim : claim ∈ (after identity events).claims) (hstatus : claim.reviewStatus = "approved") :
    ∃ before later decision dryRun clock old revision now,
      events = before ++ ⟨.review decision dryRun clock,
        [.reviews [decision.row old revision now], .claims [claim]]⟩ :: later ∧
      claim = decision.apply old revision now ∧
      Reviewing (after identity before) decision old revision := by
  obtain ⟨e, he, hrow⟩ := mem_claims_after.mp hclaim
  obtain ⟨before, later, rfl⟩ := List.append_of_mem he
  have hstage := stage_split h
  obtain ⟨op, ws⟩ := e
  cases hstage with
  | idle => cases hrow
  | registered => simp [claimRows] at hrow
  | @imported claims dryRun clock cs pending =>
    have hmem : claim ∈ cs.flatten := by simpa [claimRows, List.flatMap_map] using hrow
    have hpending := (pending claim hmem).status
    exact absurd (hpending.symm.trans hstatus) (by decide)
  | decided => simp [claimRows] at hrow
  | @reviewed decision dryRun clock old revision now reviewing =>
    obtain rfl : claim = _ := by simpa [claimRows] using hrow
    exact ⟨before, later, decision, dryRun, clock, old, revision, now, rfl, rfl, reviewing⟩

/-- Nothing is left of a review that has written both its rows. -/
theorem review_completed (h : Runs parsers identity (before ++ e :: later)) {decision : Review}
    {dryRun : Bool} {clock : Nat → Nat} {row : ReviewRow} {claim : ClaimRow}
    (he : e = ⟨.review decision dryRun clock, [.reviews [row], .claims [claim]]⟩) :
    [.reviews [row], .claims [claim]] =
      ((review decision dryRun clock).exec (after identity before)).1 := by
  subst he
  refine List.IsPrefix.eq_of_length_le h.split.2 ?_
  have hall : Stage (after identity before) (.review decision dryRun clock)
      ((review decision dryRun clock).exec (after identity before)).1 :=
    stage_review (List.prefix_refl _)
  generalize ((review decision dryRun clock).exec (after identity before)).1 = ws at hall
  cases hall with
  | idle => exact Nat.zero_le _
  | decided => exact Nat.le_succ _
  | reviewed => exact Nat.le_refl _

/-- The reviews of an address hold the greatest review of each of its claims. -/
theorem reviewsOf_greatest {db : Store} (hs : Sound db) {address : String} {claim : ClaimRow}
    (hclaim : claim ∈ claimsOf address db) {latestReview r : ReviewRow}
    (hlatest : latestReview ∈ reviewsOf address db) (hsubject : latestReview.subjectId = claim.claimId)
    (hr : r ∈ db.reviews) (hof : r.subjectId = claim.claimId) :
    r.revision ≤ latestReview.revision := by
  have hmem : r ∈ (reviewsCurrent db).filter fun r =>
      r.networkId = Network.bitcoin.id ∧ r.subjectType = "intelligence_claim" ∧
        r.subjectId ∈ (claimsOf address db).map ClaimRow.claimId := by
    obtain ⟨hnetwork, htype, _, _⟩ := hs.reviews r hr
    refine List.mem_filter.mpr ⟨hs.current hr, ?_⟩
    simp only [decide_eq_true_eq]
    exact ⟨hnetwork, htype, hof ▸ List.mem_map_of_mem hclaim⟩
  exact latest_greatest hlatest hmem (hof.trans hsubject.symm)

theorem mem_reviews_of_event (identity : String) (before later : List (Event Operation Insert))
    (op : Operation) (row : ReviewRow) (claim : ClaimRow) :
    row ∈ (after identity (before ++ ⟨op, [.reviews [row], .claims [claim]]⟩ :: later)).reviews :=
  mem_reviews_after.mpr ⟨⟨op, [.reviews [row], .claims [claim]]⟩, by simp, by simp [reviewRows]⟩

theorem approved_of_active (h : Runs parsers identity events) {address : String} {claim : ClaimRow}
    (hclaim : claim ∈ claimsOf address (after identity events)) {source : Option SourceRow}
    {found : ReviewRow} {now : Nat} (hfound : found ∈ reviewsOf address (after identity events))
    (hsubject : found.subjectId = claim.claimId)
    (hactive : active claim source (some found) now = true) :
    Approved parsers identity events claim := by
  have hs := sound_after h
  obtain ⟨hstatus, _, hsome, hdecision, hrevision⟩ := active_eq hactive
  cases hsome
  have hcurrent := (List.mem_filter.mp hclaim).1
  obtain ⟨before, later, decision, dryRun, clock, old, revision, written, rfl, hrow, hreviewing⟩ :=
    writer_of_approved h (mem_of_mem_latest hcurrent) hstatus
  obtain ⟨hid, happroved, hclaimRevision⟩ : claim.claimId = decision.claimId ∧
      decision.decision = "approved" ∧ claim.revision = revision := by
    subst hrow
    exact ⟨hreviewing.claimId, hstatus, rfl⟩
  have hreview := fun tail => mem_reviews_of_event identity before tail
    (.review decision dryRun clock) (decision.row old revision written) claim
  have hwritten := hreview later
  -- the review that is read is the one that wrote the claim's row
  have hread := mem_of_mem_latest (List.mem_filter.mp (mem_of_mem_latest hfound)).1
  have hsame : found.revision = revision := by
    have := (hs.reviews found hread).2.2.2
    rw [this] at hrevision
    exact (Option.some.inj hrevision).trans hclaimRevision
  obtain rfl : found = decision.row old revision written :=
    List.inj_on_of_nodup_map hs.distinct hread hwritten hsame
  have hle : ∀ r ∈ (after identity _).reviews, r.subjectId = claim.claimId → _ :=
    fun r hr hof => reviewsOf_greatest hs hclaim hfound hsubject hr hof
  have hlater : ∀ e' ∈ later, _ := fun e' he' =>
    later_claim revision h (fun tail _ => review_le_max (hreview tail) rfl) he'
  refine ⟨before, later, decision, dryRun, clock, _, rfl, review_completed h rfl,
    ⟨happroved, hid.symm⟩, ⟨hsubject, hdecision, hclaimRevision.symm⟩, ?_, ?_⟩
  · intro r hr hof hne
    refine Nat.lt_of_le_of_ne (hle r hr hof) fun heq => hne ?_
    exact List.inj_on_of_nodup_map hs.distinct hr hwritten heq
  · intro e' he'
    have hmem : e' ∈ before ++ ⟨.review decision dryRun clock, [.reviews [decision.row old revision
        written], .claims [claim]]⟩ :: later := by simp [he']
    refine ⟨fun c hc hof => ?_, fun r hr hof => ?_⟩
    · have hc' : c ∈ (after identity _).claims := mem_claims_after.mpr ⟨e', hmem, hc⟩
      have hkey : (c.networkId, c.claimId) = (claim.networkId, claim.claimId) := by
        rw [hs.claims c hc', hs.claims claim (mem_of_mem_latest hcurrent), hof]
      have hread := latest_greatest hcurrent hc' hkey
      have := (hlater e' he').1 c hc
      omega
    · have hr' : r ∈ (after identity _).reviews := mem_reviews_after.mpr ⟨e', hmem, hr⟩
      have := hle r hr' hof
      have := (hlater e' he').2 r hr
      change r.revision ≤ revision at *
      omega

theorem applied_as_seen {decision : Review} {dryRun : Bool} {clock : Nat → Nat}
    {ws : List Insert}
    (h : Runs parsers identity (before ++ ⟨.review decision dryRun clock, ws⟩ :: later))
    (hws : ws ≠ []) : AppliedAsSeen identity before decision ws := by
  have hstage := stage_split h
  cases hstage with
  | idle => exact absurd rfl hws
  | decided reviewing =>
    exact ⟨_, reviewing.current, reviewing.claimId, reviewing.seen, by simp [reviewRows],
      by simp [claimRows]⟩
  | reviewed reviewing =>
    exact ⟨_, reviewing.current, reviewing.claimId, reviewing.seen, by simp [reviewRows],
      by simp [claimRows]⟩

/-! ## What a report says -/

section
variable {F : FloatOps}
  {digest : String → List ClaimRow → List SourceRow → List ReviewRow → List Value → String}

theorem shown_active (claim : ClaimRow) (verdict : Bool) :
    (shown F claim verdict)["active"] = .bool verdict := by
  have hget : (shown F claim verdict).get "active" = some (.bool verdict) := by
    unfold shown ClaimRow.public
    simp [Value.set, Value.get, List.lookup_cons]
  change ((shown F claim verdict).get "active").getD .null = _
  rw [hget]; rfl

theorem lookupRow_mem {ρ : Type} {key : ρ → String} {rows : List ρ} {k : String} {r : ρ}
    (h : lookupRow key rows k = some r) : r ∈ rows ∧ key r = k := by
  have := List.mem_filter.mp (List.mem_of_getLast? h)
  simpa using this

/-- A claim of the report with a positive verdict is approved. -/
theorem approved_of_enabled (h : Runs parsers identity events) {address : String}
    {sources : List SourceRow} {reviews : List ReviewRow} {now : Nat} {claim : ClaimRow}
    (hclaim : claim ∈ claimsOf address (after identity events))
    (hreviews : ∀ r ∈ reviews, r ∈ reviewsOf address (after identity events))
    (henabled : enabled sources reviews now claim = true) :
    Approved parsers identity events claim := by
  unfold enabled at henabled
  cases hfound : lookupRow ReviewRow.subjectId reviews claim.claimId with
  | none =>
    rw [hfound] at henabled
    obtain ⟨_, _, hsome, _⟩ := active_eq henabled
    cases hsome
  | some found =>
    rw [hfound] at henabled
    obtain ⟨hmem, hsubject⟩ := lookupRow_mem hfound
    exact approved_of_active h hclaim (hreviews found hmem) hsubject henabled

/-- In every run: a claim that is reported active has as its current row the one
that an approval wrote, and neither an import nor a review of the claim wrote
anything after it; and every review that wrote anything was applied to the row
whose revision the reviewer supplied. -/
theorem active_claim_approved (h : Runs parsers identity events) :
    (∀ raw now attribution,
      readAttribution F digest parsers raw (after identity events) now = .ok attribution →
      (∀ row ∈ attribution.claims, row["active"] = .bool true →
        ∃ claim ∈ claimsCurrent (after identity events), row = shown F claim true ∧
          Approved parsers identity events claim) ∧
      ∀ entity ∈ attribution.entities, ∃ claim ∈ claimsCurrent (after identity events),
        entity = shown F claim true ∧ Approved parsers identity events claim) ∧
    ∀ before decision dryRun clock ws later,
      events = before ++ ⟨.review decision dryRun clock, ws⟩ :: later → ws ≠ [] →
      AppliedAsSeen identity before decision ws := by
  refine ⟨fun raw now attribution hread => ?_, ?_⟩
  · obtain ⟨address, _, hread⟩ := bind_ok hread
    obtain ⟨_, _, hread⟩ := bind_ok hread
    obtain ⟨_, _, hread⟩ := bind_ok hread
    cases hread
    have hclaims : ∀ c ∈ ((claimsOf address (after identity events)).insertionSort
        fun a b => a.claimId ≤ b.claimId).take 101,
        c ∈ claimsOf address (after identity events) := fun c hc =>
      (List.mem_insertionSort _).mp (List.mem_of_mem_take hc)
    have hreviews : ∀ r ∈ ((reviewsOf address (after identity events)).insertionSort
        fun a b => b.revision ≤ a.revision).take 101,
        r ∈ reviewsOf address (after identity events) := fun r hr =>
      (List.mem_insertionSort _).mp (List.mem_of_mem_take hr)
    refine ⟨fun row hrow hactive => ?_, fun entity hentity => ?_⟩
    · obtain ⟨claim, hclaim, rfl⟩ := List.mem_map.mp hrow
      rw [shown_active] at hactive
      have henabled := Value.bool.inj hactive
      have hcurrent := (List.mem_filter.mp (hclaims claim hclaim)).1
      exact ⟨claim, hcurrent, by rw [henabled],
        approved_of_enabled h (hclaims claim hclaim) hreviews henabled⟩
    · obtain ⟨claim, hclaim, rfl⟩ := List.mem_map.mp hentity
      obtain ⟨hmem, henabled⟩ := List.mem_filter.mp hclaim
      have hcurrent := (List.mem_filter.mp (hclaims claim hmem)).1
      exact ⟨claim, hcurrent, rfl,
        approved_of_enabled h (hclaims claim hmem) hreviews henabled⟩
  · rintro before decision dryRun clock ws later rfl hws
    exact applied_as_seen h hws

end

end

/-! A source is registered, a claim imported and approved. -/

def sampleParsers : Parsers where
  address raw := .ok raw
  url _ := .ok ⟨"https", some "registry.example", "", none⟩

def sampleSource : Source where
  networkId := Network.bitcoin.id
  sourceId := "registry"
  sourceName := "Registry"
  sourceType := "list"
  referenceUrl := "https://registry.example/list"
  trustTier := "high"
  license := "open"
  isActive := true
  createdBy := "operator"
  expectedRevision := none

def sampleClaim : Claim where
  networkId := Network.bitcoin.id
  claimId := "claim"
  address := "1A1zP1eP5QGefi2DMPTfTL5SLmv7DivfNa"
  entityId := "entity"
  entityName := "Entity"
  entityType := "service"
  addressRole := "deposit"
  confidence := 1
  riskLevel := 90
  isExposureSeed := true
  seedCategory := "fraud"
  sourceId := "registry"
  sourceReference := "entry 1"
  evidenceRefs := ["report:1"]
  submittedBy := "operator"
  validFromUnixMs := some 500
  validToUnixMs := none
  caseId := none
  expectedRevision := none

def sampleReview : Review where
  networkId := Network.bitcoin.id
  claimId := "claim"
  expectedRevision := "2000"
  decision := "approved"
  reviewedBy := "analyst"
  reason := "confirmed"
  evidenceRefs := ["report:1"]

def sampleEvents : List (Event Operation Insert) :=
  eventsOf (Operation.program sampleParsers) (Store.empty Network.bitcoin.id) [
    (.register sampleSource false fun _ => 1000, 1),
    (.importClaims [sampleClaim] false fun _ => 2000, 1),
    (.review sampleReview false fun _ => 3000, 2)]

theorem sampleRun : Runs sampleParsers Network.bitcoin.id sampleEvents := by
  have h := trace_eventsOf (Operation.program sampleParsers)
    (.nil : Trace _ (Store.empty Network.bitcoin.id) []) [
    (.register sampleSource false fun _ => 1000, 1),
    (.importClaims [sampleClaim] false fun _ => 2000, 1),
    (.review sampleReview false fun _ => 3000, 2)]
  exact h

def sampleReport : Except String Attribution :=
  readAttribution .rational (fun _ _ _ _ _ => String.ofList (List.replicate 64 'a')) sampleParsers
    sampleClaim.address (after Network.bitcoin.id sampleEvents) 4000

theorem sample_claim_approved : ∃ claim ∈ claimsCurrent (after Network.bitcoin.id sampleEvents),
    Approved sampleParsers Network.bitcoin.id sampleEvents claim := by
  have hreport : sampleReport.toOption.any (fun a => !a.entities.isEmpty) = true := by
    decide +kernel
  cases hread : sampleReport with
  | error e => rw [hread] at hreport; cases hreport
  | ok attribution =>
    rw [hread] at hreport
    have hne : attribution.entities ≠ [] := by simpa [Except.toOption] using hreport
    obtain ⟨entity, hentity⟩ := List.exists_mem_of_ne_nil _ hne
    obtain ⟨claim, hcurrent, _, happroved⟩ :=
      ((active_claim_approved sampleRun).1 _ _ _ hread).2 entity hentity
    exact ⟨claim, hcurrent, happroved⟩

end AmlReal.Bitcoin.ReviewedClaims
