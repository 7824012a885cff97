import AmlReal.Bitcoin.Failures

/-! # Histories of ingestion failures

Along every run of the store the rows of a failure climb in revision and never
lose attempts. Two operations can leave a row that contradicts its own status:
`gate` dead-letters without clearing `retryable`, `recover_interrupted` without
clearing the next attempt. Every other write is consistent. -/

namespace AmlReal.Bitcoin.FailureHistory
open AmlReal.Foundations.Checks (bind_ok map_ok ensure_ok context_ok)
open AmlReal.Foundations.LatestRows AmlReal.Foundations.StoreProgram
open AmlReal.Foundations.StoreProgram.Program
open AmlReal.Warehouse.Values AmlReal.Bitcoin.Failures

/-- What the status says about the other fields. -/
def Settled (row : Record) : Prop :=
  row.status ∈ [.deadLetter, .gap, .resolved] → row.retryable = some 0 ∧ row.nextAttemptUnixMs = 0

/-- A retry is below the limit of the policy that it was written under. -/
def WithinPolicy (operation : Operation) (row : Record) : Prop :=
  row.status = .retry → ∃ policy, operation.policy = some policy ∧ row.attempts < policy.maxAttempts

/-- The operation does not dead-letter a row whose other fields it leaves behind. -/
def Clear (db : Store) : Operation → Prop
  | .gate height policy _ _ => ∀ row ∈ failuresCurrent db, row.failureId = Failures.id height →
      row.status ∈ [.retry, .repairing] → policy.maxAttempts ≤ row.attempts →
      row.retryable = some 0
  | .recoverInterrupted policy clock => ∀ row i, (row, i) ∈ (interrupted db).zipIdx →
      policy.maxAttempts ≤ row.attempts → clock (3 * i + 1) = 0
  | _ => True

/-- Histories climb, and rows belong to the height that their identifier names. -/
structure Inv (db : Store) : Prop where
  keyed : ∀ r ∈ db.failures, r.networkId = Network.bitcoin.id ∧ r.failureId = Failures.id r.blockNumber
  ordered : db.failures.Pairwise fun a b =>
    a.failureId = b.failureId → a.revision < b.revision ∧ a.attempts ≤ b.attempts

/-- The row continues the history of its failure. -/
structure Advances (db : Store) (row : Record) : Prop where
  keyed : row.networkId = Network.bitcoin.id ∧ row.failureId = Failures.id row.blockNumber
  above : ∀ r ∈ db.failures, r.failureId = row.failureId →
    r.revision < row.revision ∧ r.attempts ≤ row.attempts

theorem failures_replay (db : Store) (ws : List (List Record)) :
    (replay db ws).failures = db.failures ++ ws.flatten := by
  induction ws generalizing db with
  | nil => simp
  | cons w ws ih =>
    rw [replay_cons, ih, List.flatten_cons, ← List.append_assoc]
    rfl

/-- Rows of distinct failures that all continue their histories, cut off anywhere. -/
theorem Inv.extend {db : Store} (h : Inv db) {rows : List Record} {ws : List (List Record)}
    (hdistinct : (rows.map (·.failureId)).Nodup) (hrows : ∀ row ∈ rows, Advances db row)
    (hws : ws.flatten <+: rows) : Inv (replay db ws) := by
  have hmem : ∀ row ∈ ws.flatten, Advances db row := fun row hrow => hrows row (hws.subset hrow)
  constructor
  · intro r hr
    rw [failures_replay] at hr
    rcases List.mem_append.mp hr with hr | hr
    · exact h.keyed r hr
    · exact (hmem r hr).keyed
  · rw [failures_replay, List.pairwise_append]
    refine ⟨h.ordered, ?_, fun a ha b hb => (hmem b hb).above a ha⟩
    have hne := List.pairwise_map.mp (hdistinct.sublist (hws.sublist.map _))
    exact hne.imp fun hab he => absurd he hab

/-! ## Reading the current row -/

theorem id_injective {a b : Nat} (h : Failures.id a = Failures.id b) : a = b := by
  have hdigits := congrArg String.toList h
  simp only [Failures.id, String.toList_append] at hdigits
  exact AmlReal.Foundations.Json.decimal_inj (String.toList_inj.mp (List.append_cancel_left hdigits))

/-- The row that `current` finds. -/
structure Reads (db : Store) (height : Nat) (old : Option Record) : Prop where
  found : ∀ row, old = some row → row ∈ failuresCurrent db ∧
    row.networkId = Network.bitcoin.id ∧ row.failureId = Failures.id height
  absent : old = none → ∀ row ∈ failuresCurrent db, row.networkId = Network.bitcoin.id →
    row.failureId ≠ Failures.id height

theorem reads_getLast (db : Store) (height : Nat) :
    Reads db height (((failuresCurrent db).filter fun r =>
      r.networkId = Network.bitcoin.id ∧ r.failureId = Failures.id height).getLast?) := by
  constructor
  · intro row hrow
    have hmem := List.mem_filter.mp (List.mem_of_getLast? hrow)
    simp only [decide_eq_true_eq] at hmem
    exact hmem
  · intro hnone row hrow hnetwork hid
    have hempty := List.getLast?_eq_none_iff.mp hnone
    have hmem : row ∈ (failuresCurrent db).filter fun r =>
        r.networkId = Network.bitcoin.id ∧ r.failureId = Failures.id height :=
      List.mem_filter.mpr ⟨hrow, by simp [hnetwork, hid]⟩
    rw [hempty] at hmem
    cases hmem

theorem writes_current {β : Type} {db : Store} {height : Nat} {f : Option Record → Writer β}
    {ws : List (List Record)} (h : Writes (current height >>= f) db ws) :
    ws = [] ∨ ∃ old, Reads db height old ∧ Writes (f old) db ws := by
  rcases writes_quiet ((quiet_ensure _ _).bind fun _ => quiet_read _) h with rfl | ⟨old, hold, h⟩
  · exact .inl rfl
  · obtain ⟨_, _, _, -, hensure, hread⟩ := hold.bind
    obtain ⟨rfl, -⟩ := returns_ensure hensure
    obtain ⟨-, rfl⟩ := returns_read hread
    exact .inr ⟨_, reads_getLast db height, h⟩

/-- No row of a failure is above the current one. -/
theorem Inv.below_current {db : Store} (h : Inv db) {m : Record} (hm : m ∈ failuresCurrent db) :
    ∀ r ∈ db.failures, r.failureId = m.failureId →
      r.revision ≤ m.revision ∧ r.attempts ≤ m.attempts := by
  intro r hr hid
  have hmem := mem_of_mem_latest hm
  have hnetwork := (h.keyed r hr).1.trans (h.keyed m hmem).1.symm
  have hle := latest_greatest hm hr (Prod.ext hnetwork hid)
  refine ⟨hle, ?_⟩
  obtain ⟨i, hi, rfl⟩ := List.getElem_of_mem hr
  obtain ⟨j, hj, rfl⟩ := List.getElem_of_mem hmem
  have hpair := List.pairwise_iff_getElem.mp h.ordered
  rcases Nat.lt_trichotomy i j with hij | hij | hij
  · exact (hpair i j hi hj hij hid).2
  · subst hij
    exact Nat.le_refl _
  · have := (hpair j i hj hi hij hid.symm).1
    omega

theorem Inv.advances_old {db : Store} (h : Inv db) {old row : Record}
    (hold : old ∈ failuresCurrent db) (hnetwork : row.networkId = old.networkId)
    (hid : row.failureId = old.failureId) (hblock : row.blockNumber = old.blockNumber)
    (hrevision : old.revision < row.revision) (hattempts : old.attempts ≤ row.attempts) :
    Advances db row := by
  have hkeyed := h.keyed old (mem_of_mem_latest hold)
  refine ⟨by rw [hnetwork, hid, hblock]; exact hkeyed, ?_⟩
  intro r hr hkey
  obtain ⟨hle, hatt⟩ := h.below_current hold r hr (hkey.trans hid)
  exact ⟨by omega, by omega⟩

/-- A row of the height that the current row was read for. -/
theorem Inv.advances {db : Store} (h : Inv db) {height : Nat} {old : Option Record}
    (hold : Reads db height old) {row : Record} (hnetwork : row.networkId = Network.bitcoin.id)
    (hid : row.failureId = Failures.id height) (hblock : row.blockNumber = height)
    (hrevision : (old.map (·.revision)).getD 0 < row.revision)
    (hattempts : (old.map (·.attempts)).getD 0 ≤ row.attempts) : Advances db row := by
  cases old with
  | none =>
    refine ⟨⟨hnetwork, by rw [hid, hblock]⟩, ?_⟩
    intro r hr hkey
    obtain ⟨m, hm, hmkey, -⟩ : ∃ m ∈ failuresCurrent db,
        (m.networkId, m.failureId) = (r.networkId, r.failureId) ∧ r.revision ≤ m.revision :=
      exists_mem_latest hr
    obtain ⟨hmnetwork, hmid⟩ := Prod.mk.inj hmkey
    have habsent := hold.absent rfl m hm (hmnetwork.trans (h.keyed r hr).1)
    exact absurd (hmid.trans (hkey.trans hid)) habsent
  | some o =>
    obtain ⟨hmem, honetwork, hoid⟩ := hold.found o rfl
    have hoblock := (h.keyed o (mem_of_mem_latest hmem)).2
    exact h.advances_old hmem (hnetwork.trans honetwork.symm) (hid.trans hoid.symm)
      (hblock.trans (id_injective (hoid.symm.trans hoblock))) hrevision hattempts

theorem revision_ok {previous timestamp next : Nat} (h : revision previous timestamp = .ok next) :
    previous < next := by
  unfold revision at h
  obtain ⟨n, hn, h⟩ := bind_ok h
  obtain ⟨floor, -, h⟩ := bind_ok h
  obtain ⟨hadd, -⟩ := checkedAdd_eq_some (context_ok hn)
  cases h
  omega

theorem increment_ok {value next : Nat} (h : increment value = .ok next) : value ≤ next := by
  unfold increment at h
  have h := context_ok h
  split at h
  · cases h
    omega
  · cases h

theorem writes_save {rows : List Record} {db : Store} {ws : List (List Record)}
    (h : Writes (save rows) db ws) : ws.flatten <+: rows := by
  unfold save at h
  rcases writes_lift h with rfl | ⟨_, -, h⟩
  · exact List.nil_prefix
  have h := writes_read h
  rcases writes_ensure h with rfl | ⟨-, h⟩
  · exact List.nil_prefix
  have hchunks := writes_forM_write h
  rw [List.map_id'] at hchunks
  exact flatten_prefix_of_chunks (by decide) hchunks

/-! ## One operation -/

/-- What an operation leaves when it stops after the inserts `ws`. -/
structure Kept (db : Store) (operation : Operation) (ws : List (List Record)) : Prop where
  inv : Inv (replay db ws)
  within : ∀ row ∈ ws.flatten, WithinPolicy operation row
  settled : Clear db operation → ∀ row ∈ ws.flatten, Settled row

section
variable {db : Store} {operation : Operation} {ws : List (List Record)}

theorem Kept.nil (h : Inv db) : Kept db operation [] where
  inv := h
  within _ hrow := by cases hrow
  settled _ _ hrow := by cases hrow

theorem Kept.of_batch (h : Inv db) {rows : List Record}
    (hdistinct : (rows.map (·.failureId)).Nodup) (hws : ws.flatten <+: rows)
    (hrows : ∀ row ∈ rows, Advances db row ∧ WithinPolicy operation row ∧
      (Clear db operation → Settled row)) : Kept db operation ws where
  inv := h.extend hdistinct (fun row hrow => (hrows row hrow).1) hws
  within row hrow := (hrows row (hws.subset hrow)).2.1
  settled hclear row hrow := (hrows row (hws.subset hrow)).2.2 hclear

theorem Kept.of_row (h : Inv db) {row : Record} (hws : ws.flatten <+: [row])
    (hadvances : Advances db row) (hwithin : WithinPolicy operation row)
    (hsettled : Clear db operation → Settled row) : Kept db operation ws := by
  refine .of_batch h (by simp) hws fun r hr => ?_
  obtain rfl := List.mem_singleton.mp hr
  exact ⟨hadvances, hwithin, hsettled⟩

theorem keeps_record {height : Nat} {hash : Option String} {stage : Stage} {policy : Policy}
    {countAttempt : Bool} {clock : Nat → Nat} (hinv : Inv db)
    (h : Writes (record height hash stage policy countAttempt clock) db ws) :
    Kept db (.record height hash stage policy countAttempt clock) ws := by
  unfold record at h
  rcases writes_lift h with rfl | ⟨_, -, h⟩
  · exact .nil hinv
  rcases writes_current h with rfl | ⟨old, hold, h⟩
  · exact .nil hinv
  rcases writes_lift h with rfl | ⟨attempts, hattempts, h⟩
  · exact .nil hinv
  rcases writes_lift h with rfl | ⟨hash', -, h⟩
  · exact .nil hinv
  rcases writes_lift h with rfl | ⟨next, hnext, h⟩
  · exact .nil hinv
  have hws := writes_save (h.of_quiet_tail fun _ => quiet_pure _)
  have hrevision := revision_ok hnext
  have hle : (old.map (·.attempts)).getD 0 ≤ attempts := by
    unfold countedAttempts at hattempts
    split at hattempts
    · exact increment_ok hattempts
    · obtain ⟨o, ho, rfl⟩ := map_ok hattempts
      rw [context_ok ho]
      exact Nat.le_refl _
  refine .of_row hinv hws (hinv.advances hold rfl rfl rfl hrevision hle) ?_ ?_
  · intro hretry
    change (if attempts ≥ policy.maxAttempts then Status.deadLetter else .retry) = .retry at hretry
    split at hretry
    · cases hretry
    · exact ⟨policy, rfl, by change attempts < _; omega⟩
  · rintro - hstatus
    have hge : attempts ≥ policy.maxAttempts := by
      by_contra hlt
      change (if attempts ≥ policy.maxAttempts then Status.deadLetter else .retry) ∈ _ at hstatus
      rw [if_neg hlt] at hstatus
      simp at hstatus
    refine ⟨?_, if_pos hge⟩
    change some (if attempts < policy.maxAttempts then 1 else 0) = some 0
    rw [if_neg (by omega)]

theorem keeps_resolved {height : Nat} {hash : String} {countAttempt : Bool} {clock : Nat → Nat}
    (hinv : Inv db) (h : Writes (resolved height hash countAttempt clock) db ws) :
    Kept db operation ws := by
  rcases writes_current h with rfl | ⟨old, hold, h⟩
  · exact .nil hinv
  cases old with
  | none =>
    obtain rfl := writes_pure h
    exact .nil hinv
  | some row =>
    rcases writes_when h with ⟨-, h⟩ | ⟨-, rfl⟩
    · rcases writes_lift h with rfl | ⟨hash', -, h⟩
      · exact .nil hinv
      rcases writes_lift h with rfl | ⟨attempts, hattempts, h⟩
      · exact .nil hinv
      rcases writes_lift h with rfl | ⟨next, hnext, h⟩
      · exact .nil hinv
      have hle : row.attempts ≤ attempts := by
        split at hattempts
        · exact increment_ok hattempts
        · cases hattempts
          exact Nat.le_refl _
      have hmem := (hold.found row rfl).1
      refine .of_row hinv (writes_save h)
        (hinv.advances_old hmem rfl rfl rfl (revision_ok hnext) hle) ?_ ?_
      · intro hretry
        cases hretry
      · intro _ _
        exact ⟨rfl, rfl⟩
    · exact .nil hinv

theorem keeps_beginRepair {height : Nat} {clock : Nat → Nat} (hinv : Inv db)
    (h : Writes (beginRepair height clock) db ws) : Kept db operation ws := by
  rcases writes_current h with rfl | ⟨old, hold, h⟩
  · exact .nil hinv
  rcases writes_lift h with rfl | ⟨row, hrow, h⟩
  · exact .nil hinv
  rcases writes_ensure h with rfl | ⟨-, h⟩
  · exact .nil hinv
  rcases writes_lift h with rfl | ⟨attempts, hattempts, h⟩
  · exact .nil hinv
  rcases writes_lift h with rfl | ⟨next, hnext, h⟩
  · exact .nil hinv
  have hws := writes_save (h.of_quiet_tail fun _ => quiet_pure _)
  have hmem := (hold.found row (context_ok hrow)).1
  refine .of_row hinv hws
    (hinv.advances_old hmem rfl rfl rfl (revision_ok hnext) (increment_ok hattempts)) ?_ ?_
  · intro hretry
    cases hretry
  · intro _ hstatus
    simp at hstatus

theorem gapRow_settled (operation : Operation) (height : Nat) (hash : Option String) (old : Option Record)
    (revision created first last : Nat) :
    WithinPolicy operation (gapRow height hash old revision created first last) ∧
      Settled (gapRow height hash old revision created first last) := by
  constructor
  · intro hretry
    cases hretry
  · intro _
    exact ⟨rfl, rfl⟩

theorem keeps_markGap {height : Nat} {hash : Option String} {clock : Nat → Nat} (hinv : Inv db)
    (h : Writes (markGap height hash clock) db ws) : Kept db operation ws := by
  rcases writes_current h with rfl | ⟨old, hold, h⟩
  · exact .nil hinv
  rcases writes_lift h with rfl | ⟨next, hnext, h⟩
  · exact .nil hinv
  obtain ⟨hwithin, hsettled⟩ := gapRow_settled operation height hash old next
    (clock 0) (clock 0) (clock 0)
  exact .of_row hinv (writes_save h)
    (hinv.advances hold rfl rfl rfl (revision_ok hnext) (Nat.le_refl _)) hwithin fun _ => hsettled

theorem keeps_gate {height : Nat} {policy : Policy} {once : Bool} {clock : Nat → Nat}
    (hinv : Inv db) (h : Writes (gate height policy once clock) db ws) :
    Kept db (.gate height policy once clock) ws := by
  rcases writes_current h with rfl | ⟨old, hold, h⟩
  · exact .nil hinv
  cases old with
  | none =>
    obtain rfl := writes_pure h
    exact .nil hinv
  | some row =>
    simp only at h
    split at h
    · obtain rfl := writes_pure h
      exact .nil hinv
    split at h
    · obtain rfl := writes_pure h
      exact .nil hinv
    split at h
    · obtain rfl := writes_pure h
      exact .nil hinv
    rename_i hresolved hgap hdead
    split at h
    · rename_i hge
      rcases writes_lift h with rfl | ⟨next, hnext, h⟩
      · exact .nil hinv
      obtain ⟨hmem, -, hid⟩ := hold.found row rfl
      have hws := writes_save (h.of_quiet_tail fun _ => quiet_pure _)
      refine .of_row hinv hws
        (hinv.advances_old hmem rfl rfl rfl (revision_ok hnext) (Nat.le_refl _)) ?_ ?_
      · intro hretry
        cases hretry
      · intro hclear _
        have hopen : row.status ∈ [Status.retry, .repairing] := by
          cases hstatus : row.status <;> simp_all
        exact ⟨hclear row hmem hid hopen hge, rfl⟩
    · split at h
      · obtain rfl := writes_pure h
        exact .nil hinv
      · obtain rfl := writes_pure h
        exact .nil hinv

theorem interrupt_ok {policy : Policy} {row next : Record} {clock : Nat → Nat}
    (h : row.interrupt policy clock = .ok next) :
    next.networkId = row.networkId ∧ next.failureId = row.failureId ∧
      next.blockNumber = row.blockNumber ∧ row.revision < next.revision ∧
      next.attempts = row.attempts ∧ next.nextAttemptUnixMs = clock 1 ∧
      next.status = (if row.attempts ≥ policy.maxAttempts then .deadLetter else .retry) ∧
      next.retryable = some (if row.attempts < policy.maxAttempts then 1 else 0) := by
  unfold Record.interrupt at h
  obtain ⟨revision, hrevision, h⟩ := bind_ok h
  cases h
  exact ⟨rfl, rfl, rfl, revision_ok hrevision, rfl, rfl, rfl, rfl⟩

theorem mem_interrupted {row : Record} (h : row ∈ interrupted db) : row ∈ failuresCurrent db := by
  have hsorted := List.mem_of_mem_take h
  rw [List.mem_insertionSort] at hsorted
  exact List.mem_of_mem_filter hsorted

theorem interrupted_distinct (hinv : Inv db) : ((interrupted db).map (·.failureId)).Nodup := by
  have hnodup : (interrupted db).Nodup := by
    refine ((List.perm_insertionSort _ _).nodup_iff.mpr ?_).sublist (List.take_sublist _ _)
    exact (latest_nodup _).filter _
  refine List.Nodup.map_on (fun a ha b hb he => ?_) hnodup
  have ha := mem_interrupted ha
  have hb := mem_interrupted hb
  have hnetwork := (hinv.keyed a (mem_of_mem_latest ha)).1.trans
    (hinv.keyed b (mem_of_mem_latest hb)).1.symm
  exact latest_unique ha hb (Prod.ext hnetwork he)

theorem map_failureId_of_mapM {policy : Policy} {clock : Nat → Nat} {rows : List (Record × Nat)}
    {next : List Record}
    (h : rows.mapM (fun (row, i) => row.interrupt policy fun j => clock (3 * i + j)) = .ok next) :
    next.map (·.failureId) = rows.map (·.1.failureId) := by
  induction rows generalizing next with
  | nil =>
    cases h
    rfl
  | cons p rows ih =>
    rw [List.mapM_cons] at h
    obtain ⟨row, hrow, h⟩ := bind_ok h
    obtain ⟨rest, hrest, h⟩ := bind_ok h
    cases h
    rw [List.map_cons, List.map_cons, ih hrest, (interrupt_ok hrow).2.1]

theorem keeps_recoverInterrupted {policy : Policy} {clock : Nat → Nat} (hinv : Inv db)
    (h : Writes (recoverInterrupted policy clock) db ws) :
    Kept db (.recoverInterrupted policy clock) ws := by
  have h := writes_read h
  rcases writes_lift h with rfl | ⟨rows, hrows, h⟩
  · exact .nil hinv
  have hdistinct : (rows.map (·.failureId)).Nodup := by
    have hids : (interrupted db).zipIdx.map (·.1.failureId) =
        (interrupted db).map (·.failureId) := by
      have hfst := congrArg (List.map Record.failureId) (List.zipIdx_map_fst 0 (interrupted db))
      rwa [List.map_map] at hfst
    rw [map_failureId_of_mapM hrows, hids]
    exact interrupted_distinct hinv
  refine .of_batch hinv hdistinct (writes_save h) fun next hnext => ?_
  obtain ⟨⟨row, i⟩, hmem, hrow⟩ := AmlReal.Foundations.Checks.mem_of_mapM hrows next hnext
  obtain ⟨hnetwork, hid, hblock, hrevision, hattempts, htime, hstatus, hretryable⟩ :=
    interrupt_ok hrow
  have hcurrent := mem_interrupted (List.fst_mem_of_mem_zipIdx hmem)
  refine ⟨hinv.advances_old hcurrent hnetwork hid hblock hrevision (Nat.le_of_eq hattempts.symm),
    ?_, ?_⟩
  · intro hretry
    rw [hstatus] at hretry
    split at hretry
    · cases hretry
    · exact ⟨policy, rfl, by omega⟩
  · intro hclear hsettled
    rw [hstatus] at hsettled
    by_cases hge : row.attempts ≥ policy.maxAttempts
    · rw [hretryable, htime, if_neg (by omega)]
      exact ⟨rfl, hclear row i hmem hge⟩
    · rw [if_neg hge] at hsettled
      simp at hsettled

theorem keeps_settleRow {state : SyncState} {blockHash : Nat → Option String}
    {clock readings : Nat → Nat} {row : Record} (hinv : Inv db)
    (h : Writes (match blockHash row.blockNumber with
      | some hash => resolved row.blockNumber hash false readings
      | none => pure ()) db ws) : Kept db (.settlePublished state blockHash clock) ws := by
  split at h
  · exact keeps_resolved hinv h
  · obtain rfl := writes_pure h
    exact .nil hinv

theorem keeps_settleRows {state : SyncState} {blockHash : Nat → Option String}
    {clock : Nat → Nat} {rows : List (Record × Nat)} (hinv : Inv db)
    (h : Writes (rows.forM fun (row, i) =>
      match blockHash row.blockNumber with
      | some hash => resolved row.blockNumber hash false fun j => clock (2 * i + j)
      | none => pure ()) db ws) : Kept db (.settlePublished state blockHash clock) ws := by
  induction rows generalizing db ws with
  | nil =>
    obtain rfl := writes_pure h
    exact .nil hinv
  | cons p rows ih =>
    rcases Writes.bind h with h | ⟨first, _, rest, rfl, hfirst, hrest⟩
    · exact keeps_settleRow hinv h
    · have hkept : Kept db (.settlePublished state blockHash clock) first :=
        keeps_settleRow hinv hfirst.writes
      have hkept' := ih hkept.inv hrest
      constructor
      · rw [replay_append]
        exact hkept'.inv
      · intro row hrow
        rw [List.flatten_append] at hrow
        exact (List.mem_append.mp hrow).elim (hkept.within row) (hkept'.within row)
      · intro _ row hrow
        rw [List.flatten_append] at hrow
        exact (List.mem_append.mp hrow).elim (hkept.settled trivial row)
          (hkept'.settled trivial row)

theorem keeps_settlePublished {state : SyncState} {blockHash : Nat → Option String}
    {clock : Nat → Nat} (hinv : Inv db) (h : Writes (settlePublished state blockHash clock) db ws) :
    Kept db (.settlePublished state blockHash clock) ws := by
  rcases writes_when h with ⟨-, h⟩ | ⟨-, rfl⟩
  · exact keeps_settleRows hinv (writes_read h)
  · exact .nil hinv

/-- The heights of the gap rows climb, and each row continues what was read for its height. -/
theorem gapRows_ok {published : Published} {old : Nat → Option Record}
    {clock : Nat → Nat → Nat} {height count : Nat} {parent : Option String} {rows : List Record}
    (h : gapRows published old clock height count parent = .ok rows) :
    (rows.map (·.blockNumber)).Pairwise (· < ·) ∧ ∀ row ∈ rows, height ≤ row.blockNumber ∧
      row.blockNumber < height + count ∧ ∃ hash revision created first last,
        row = gapRow row.blockNumber hash (old row.blockNumber) revision created first last ∧
        ((old row.blockNumber).map (·.revision)).getD 0 < revision := by
  induction count generalizing height parent rows with
  | zero =>
    cases h
    simp
  | succ count ih =>
    simp only [gapRows] at h
    split at h
    · obtain ⟨hsorted, hrows⟩ := ih h
      refine ⟨hsorted, fun row hrow => ?_⟩
      obtain ⟨hlow, hhigh, hrest⟩ := hrows row hrow
      exact ⟨by omega, by omega, hrest⟩
    · obtain ⟨revision, hrevision, h⟩ := bind_ok h
      obtain ⟨rest, hrest, h⟩ := bind_ok h
      cases h
      obtain ⟨hsorted, hrows⟩ := ih hrest
      constructor
      · rw [List.map_cons, List.pairwise_cons]
        refine ⟨fun block hblock => ?_, hsorted⟩
        obtain ⟨row, hrow, rfl⟩ := List.mem_map.mp hblock
        have := (hrows row hrow).1
        show height < row.blockNumber
        omega
      · intro row hrow
        rcases List.mem_cons.mp hrow with rfl | hrow
        · show height ≤ height ∧ height < height + (count + 1) ∧ _
          exact ⟨by omega, by omega, _, _, _, _, _, rfl, revision_ok hrevision⟩
        · obtain ⟨hlow, hhigh, hrest⟩ := hrows row hrow
          exact ⟨by omega, by omega, hrest⟩

theorem reads_range (hinv : Inv db) {start stop height : Nat} (hlow : start ≤ height)
    (hhigh : height ≤ stop) : Reads db height
      ((((failuresCurrent db).filter fun r => r.networkId = Network.bitcoin.id ∧
        start ≤ r.blockNumber ∧ r.blockNumber ≤ stop).filter
          (·.blockNumber = height)).getLast?) := by
  rw [List.filter_filter]
  constructor
  · intro row hrow
    obtain ⟨hmem, hkeep⟩ := List.mem_filter.mp (List.mem_of_getLast? hrow)
    simp only [Bool.and_eq_true, decide_eq_true_eq] at hkeep
    obtain ⟨rfl, hnetwork, -⟩ := hkeep
    exact ⟨hmem, hnetwork, (hinv.keyed row (mem_of_mem_latest hmem)).2⟩
  · intro hnone row hrow hnetwork hid
    have hblock : row.blockNumber = height :=
      id_injective ((hinv.keyed row (mem_of_mem_latest hrow)).2.symm.trans hid)
    have hempty := List.filter_eq_nil_iff.mp (List.getLast?_eq_none_iff.mp hnone) row hrow
    simp [hblock, hnetwork, hlow, hhigh] at hempty

theorem keeps_scanGaps {published : Published} {start stop maxBlocks : Nat}
    {clock : Nat → Nat → Nat} (hinv : Inv db)
    (h : Writes (scanGaps published start stop maxBlocks clock) db ws) :
    Kept db operation ws := by
  rcases writes_ensure h with rfl | ⟨hrange, h⟩
  · exact .nil hinv
  rcases writes_ensure h with rfl | ⟨-, h⟩
  · exact .nil hinv
  have h := writes_read h
  rcases writes_lift h with rfl | ⟨rows, hrows, h⟩
  · exact .nil hinv
  rcases writes_ensure h with rfl | ⟨-, h⟩
  · exact .nil hinv
  obtain ⟨hsorted, hrow⟩ := gapRows_ok hrows
  have hid : ∀ row ∈ rows, row.failureId = Failures.id row.blockNumber := by
    intro row hmem
    obtain ⟨_, _, _, _, _, _, _, heq, _⟩ := hrow row hmem
    rw [heq]
    rfl
  have hdistinct : (rows.map (·.failureId)).Nodup := by
    have hids : rows.map (·.failureId) = (rows.map (·.blockNumber)).map Failures.id := by
      rw [List.map_map]
      exact List.map_congr_left hid
    rw [hids]
    have hblocks : (rows.map (·.blockNumber)).Nodup := hsorted.imp fun hlt => Nat.ne_of_lt hlt
    exact List.Nodup.map (fun _ _ => id_injective) hblocks
  refine .of_batch hinv hdistinct (writes_save (h.of_quiet_tail fun _ => quiet_pure _)) ?_
  intro row hmem
  obtain ⟨hlow, hhigh, hash, revision, created, first, last, heq, hrevision⟩ := hrow row hmem
  have hreads := reads_range hinv hlow (show row.blockNumber ≤ stop by omega)
  obtain ⟨hwithin, hsettled⟩ := gapRow_settled operation row.blockNumber hash
    _ revision created first last
  rw [← heq] at hwithin hsettled
  refine ⟨hinv.advances hreads ?_ (hid row hmem) rfl ?_ ?_, hwithin, fun _ => hsettled⟩
  · rw [heq]
    rfl
  · rw [heq]
    exact hrevision
  · rw [heq]
    exact Nat.le_refl _

theorem keeps_program (hinv : Inv db) (h : Writes operation.program db ws) :
    Kept db operation ws := by
  cases operation with
  | record => exact keeps_record hinv (h.of_quiet_tail fun _ => quiet_pure _)
  | resolved => exact keeps_resolved hinv h
  | beginRepair => exact keeps_beginRepair hinv (h.of_quiet_tail fun _ => quiet_pure _)
  | markGap => exact keeps_markGap hinv h
  | gate => exact keeps_gate hinv (h.of_quiet_tail fun _ => quiet_pure _)
  | recoverInterrupted => exact keeps_recoverInterrupted hinv h
  | settlePublished => exact keeps_settlePublished hinv h
  | scanGaps => exact keeps_scanGaps hinv (h.of_quiet_tail fun _ => quiet_pure _)

end

/-! ## Runs -/

abbrev Run (identity : String) (events : List (Event Operation (List Record))) : Prop :=
  Trace (fun db operation ws => Writes operation.program db ws) (Store.empty identity) events

section
variable {identity : String} {events : List (Event Operation (List Record))}

theorem Run.inv (h : Run identity events) : Inv (replayEvents (Store.empty identity) events) :=
  h.invariant ⟨by simp [Store.empty], by simp [Store.empty]⟩ fun _ _ _ hinv hstep => (keeps_program hinv hstep).inv

/-- A stored row was written by an event of the run. -/
theorem Run.written (h : Run identity events) :
    ∀ row ∈ (replayEvents (Store.empty identity) events).failures, ∃ before e after,
      events = before ++ e :: after ∧ row ∈ e.inserts.flatten ∧
      Kept (replayEvents (Store.empty identity) before) e.operation e.inserts := by
  intro row hrow
  unfold replayEvents at hrow
  rw [failures_replay] at hrow
  change row ∈ [] ++ _ at hrow
  rw [List.nil_append] at hrow
  obtain ⟨rows, hrows, hmem⟩ := List.mem_flatten.mp hrow
  obtain ⟨before, e, after, rfl, he⟩ := mem_inserts_of_split hrows
  obtain ⟨hbefore, hstep⟩ := h.split
  exact ⟨before, e, after, rfl, List.mem_flatten.mpr ⟨rows, he, hmem⟩,
    keeps_program (Run.inv hbefore) hstep⟩

/-- Histories climb in every run, retries respect the policy they were written
under, and where no operation dead-letters a row half-way every row is settled. -/
theorem failure_history (h : Run identity events) :
    (∀ failureId, ((replayEvents (Store.empty identity) events).failures.filter
      (·.failureId = failureId)).Pairwise fun a b =>
        a.revision < b.revision ∧ a.attempts ≤ b.attempts) ∧
    ((∀ before e after, events = before ++ e :: after →
        Clear (replayEvents (Store.empty identity) before) e.operation) →
      ∀ row ∈ failuresCurrent (replayEvents (Store.empty identity) events), Settled row ∧
        ∃ e ∈ events, row ∈ e.inserts.flatten ∧ WithinPolicy e.operation row) := by
  constructor
  · intro failureId
    have hordered := h.inv.ordered.filter (fun r => decide (r.failureId = failureId))
    refine List.Pairwise.imp_of_mem ?_ hordered
    intro a b ha hb hab
    have ha := of_decide_eq_true (List.mem_filter.mp ha).2
    have hb := of_decide_eq_true (List.mem_filter.mp hb).2
    exact hab (ha.trans hb.symm)
  · intro hclear row hrow
    obtain ⟨before, e, after, hsplit, hmem, hkept⟩ := h.written row (mem_of_mem_latest hrow)
    exact ⟨hkept.settled (hclear before e after hsplit) row hmem, e, by simp [hsplit], hmem,
      hkept.within row hmem⟩

end

/-! ## Rows that contradict their status -/

def samplePolicy : Policy := ⟨2, 1⟩

def sampleClock : Nat → Nat := fun _ => 1000

/-- A second attempt, reserved by a repair, is interrupted. -/
def interruptedRepair : List (Operation × Nat) := [
  (.record 5 none .fetch samplePolicy true sampleClock, 1), (.beginRepair 5 sampleClock, 1),
  (.recoverInterrupted samplePolicy sampleClock, 1)]

/-- The limit is lowered between an attempt and the next gate. -/
def loweredLimit : List (Operation × Nat) := [
  (.record 5 none .fetch samplePolicy true sampleClock, 1), (.gate 5 ⟨1, 1⟩ false sampleClock, 1)]

def sampleEvents (operations : List (Operation × Nat)) : List (Event Operation (List Record)) :=
  eventsOf Operation.program (Store.empty Network.bitcoin.id) operations

theorem sampleEvents_run (operations : List (Operation × Nat)) :
    Run Network.bitcoin.id (sampleEvents operations) :=
  trace_eventsOf Operation.program .nil operations

def sampleCurrent (operations : List (Operation × Nat)) : List Record :=
  failuresCurrent (replayEvents (Store.empty Network.bitcoin.id) (sampleEvents operations))

theorem dead_letter_unsettled :
    (¬ ∀ events, Run Network.bitcoin.id events → ∀ row ∈
      failuresCurrent (replayEvents (Store.empty Network.bitcoin.id) events), Settled row) ∧
    (sampleCurrent interruptedRepair).map (fun r => (r.status, r.retryable, r.nextAttemptUnixMs)) =
      [(.deadLetter, some 0, 1000)] ∧
    (sampleCurrent loweredLimit).map (fun r => (r.status, r.retryable, r.nextAttemptUnixMs)) =
      [(.deadLetter, some 1, 0)] := by
  have hrepair : (sampleCurrent interruptedRepair).map
      (fun r => (r.status, r.retryable, r.nextAttemptUnixMs)) = [(.deadLetter, some 0, 1000)] := by
    decide +kernel
  refine ⟨fun h => ?_, hrepair, by decide +kernel⟩
  have hmem : (Status.deadLetter, some 0, 1000) ∈ (sampleCurrent interruptedRepair).map
      (fun r => (r.status, r.retryable, r.nextAttemptUnixMs)) := by
    rw [hrepair]
    exact List.mem_singleton_self _
  obtain ⟨row, hrow, hfields⟩ := List.mem_map.mp hmem
  obtain ⟨hstatus, hrest⟩ := Prod.mk.inj hfields
  obtain ⟨-, htime⟩ := Prod.mk.inj hrest
  have hsettled := h _ (sampleEvents_run interruptedRepair) row hrow (by rw [hstatus]; simp)
  exact absurd (htime.symm.trans hsettled.2) (by decide)

/-- A first attempt and the publication that resolves it. -/
def resolvedAttempt : List (Operation × Nat) := [
  (.record 5 none .fetch samplePolicy true sampleClock, 1),
  (.resolved 5 (String.ofList (List.replicate 64 'a')) false sampleClock, 1)]

theorem resolved_attempt_settled : ∃ row ∈ sampleCurrent resolvedAttempt,
    row.status = .resolved ∧ Settled row := by
  have hrun := sampleEvents_run resolvedAttempt
  obtain ⟨-, hsettled⟩ := failure_history hrun
  have hstatus : (sampleCurrent resolvedAttempt).map (·.status) = [.resolved] := by decide +kernel
  have hmem : Status.resolved ∈ (sampleCurrent resolvedAttempt).map (·.status) := by
    rw [hstatus]
    exact List.mem_singleton_self _
  obtain ⟨row, hrow, hrowStatus⟩ := List.mem_map.mp hmem
  have hoperations : ∀ e ∈ sampleEvents resolvedAttempt, ∀ db, Clear db e.operation := by
    intro e he db
    have hshape : (sampleEvents resolvedAttempt).map Event.operation =
        resolvedAttempt.map Prod.fst := rfl
    have hop := List.mem_map_of_mem (f := Event.operation) he
    rw [hshape] at hop
    simp only [resolvedAttempt, List.map_cons, List.map_nil, List.mem_cons,
      List.not_mem_nil, or_false] at hop
    rcases hop with hop | hop
    · rw [hop]
      trivial
    · rw [hop]
      trivial
  refine ⟨row, hrow, hrowStatus, (hsettled ?_ row hrow).1⟩
  intro before e after hsplit
  exact hoperations e (by rw [hsplit]; simp) _

end AmlReal.Bitcoin.FailureHistory
