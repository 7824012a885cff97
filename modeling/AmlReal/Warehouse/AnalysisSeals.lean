import AmlReal.Foundations.KeyedPools
import AmlReal.Warehouse.AnalysisPublications
import AmlReal.Warehouse.Fence

/-! # What sealed analyses show

Analyses are published and taken back beside each other and beside whoever
writes blocks; at most one attempt of an id runs at a time. A seal is set once,
over rows that were counted, and shows its rows only while the fence stands
where it was set and no one took it back. -/

namespace AmlReal.Warehouse.AnalysisSeals
open AmlReal.Foundations.LatestRows AmlReal.Foundations.StoreProgram
open AmlReal.Foundations.StoreProgram.Program AmlReal.Foundations.KeyedPools
open AmlReal.Foundations.Interleaving (Under under_pure under_read under_ensure under_lift under_only)
open AmlReal.Foundations.Checks (context_ok bind_ok ensure_ok forM_ok)
open AmlReal.Warehouse.Values AmlReal.Warehouse.Tables AmlReal.Warehouse.Publication
open AmlReal.Warehouse.Contents AmlReal.Warehouse.Fence AmlReal.Warehouse.AnalysisPublications
open AmlReal.Warehouse.Rules (snapshotFromState)
open AmlReal.Warehouse.Operations (sampleHash sampleBlock)

/-! ## What each program relies on -/

/-- No publication is under the key. -/
def Unsealed (key : Key) (db : Database) : Prop := ∀ p ∈ db.analysisPublications, AnalysisPublication.key p ≠ key

/-- What an attempt relies on: the fence does not go back, and no one else
publishes or writes under its key. -/
structure Allows (key : Key) (s t : Database) : Prop where
  fence : ∀ network, (currentState network s).revision ≤ (currentState network t).revision
  unsealed : Unsealed key s → Unsealed key t
  rows : ∀ table, DerivedTable.family table = key.family → ∀ revision,
    countRows key.networkId key.id (some revision) table t ≤ countRows key.networkId key.id (some revision) table s

/-- What is relied on without a key: publications stay, and what is published is not sealed again. -/
structure Grows (s t : Database) : Prop where
  stay : ∀ p ∈ s.analysisPublications, p ∈ t.analysisPublications
  once : ∀ p ∈ t.analysisPublications, p.status = .complete →
    (∃ q ∈ s.analysisPublications, AnalysisPublication.key q = AnalysisPublication.key p) → p ∈ s.analysisPublications

def relies : Option Key → Database → Database → Prop
  | none => Grows
  | some key => Allows key

theorem relies_rely : Rely relies where
  refl key s := by
    cases key with
    | none => exact ⟨fun _ hp => hp, fun _ hp _ _ => hp⟩
    | some key => exact ⟨fun _ => Nat.le_refl _, id, fun _ _ _ => Nat.le_refl _⟩
  trans key s t u hst htu := by
    cases key with
    | none =>
      refine ⟨fun p hp => htu.stay p (hst.stay p hp), fun p hp hcomplete hsealed => ?_⟩
      obtain ⟨q, hq, hkey⟩ := hsealed
      exact hst.once p (htu.once p hp hcomplete ⟨q, hst.stay q hq, hkey⟩) hcomplete ⟨q, hq, hkey⟩
    | some key =>
      exact ⟨fun network => (hst.fence network).trans (htu.fence network),
        fun h => htu.unsealed (hst.unsealed h),
        fun table hfamily revision => (htu.rows table hfamily revision).trans (hst.rows table hfamily revision)⟩

/-! ## The invariant -/

structure Inv (db : Database) : Prop where
  fence : ∀ p ∈ db.analysisPublications, p.sourceRevision ≤ (currentState p.networkId db).revision
  once : ∀ key, (db.analysisPublications.filter fun p =>
    AnalysisPublication.key p = key ∧ p.status = .complete).length ≤ 1
  invalidated : ∀ p ∈ db.analysisPublications, p.status = .invalidated → ∀ q ∈ db.analysisPublications,
    AnalysisPublication.key q = AnalysisPublication.key p → q.status = .complete → q.revision < p.revision
  counted : ∀ p ∈ db.analysisPublications, p.status = .complete → ∀ table, DerivedTable.family table = p.family →
    ∃ n, (table, n) ∈ p.rowCounts ∧
      countRows p.networkId p.publicationId (some p.outputRevision) table db ≤ n

theorem inv_empty (network : Network) : Inv (Database.empty network) where
  fence p hp := by cases hp
  once key := Nat.zero_le 1
  invalidated p hp := by cases hp
  counted p hp := by cases hp

/-! ## The tables after an insert -/

section
variable {db : Database} {w : Insert}

theorem fence_append (network : Network) :
    (currentState network db).revision ≤ (currentState network (LogStore.append db w)).revision := by
  have hrows : (LogStore.append db w).syncState = db.syncState ++ Insert.stateRows w := by
    have hreplay := replay_syncState db [w]
    rw [replay_cons, replay_nil, stateRows_cons, stateRows_nil, List.append_nil] at hreplay
    exact hreplay
  unfold currentState
  cases hfind : (syncStateCurrent db).find? fun s => s.networkId = network with
  | none => exact Nat.zero_le _
  | some s =>
    have hnetwork : s.networkId = network := by simpa using List.find?_some hfind
    have hmem : s ∈ (LogStore.append db w).syncState := by
      rw [hrows]
      exact List.mem_append_left _ (mem_of_mem_latest (List.mem_of_find?_eq_some hfind))
    obtain ⟨m, hm, hkey, hrevision⟩ : ∃ m ∈ syncStateCurrent (LogStore.append db w),
        m.networkId = s.networkId ∧ s.revision ≤ m.revision := exists_mem_latest hmem
    have hcurrent := eq_currentState hm
    unfold currentState at hcurrent
    rw [hkey, hnetwork] at hcurrent
    rw [← hcurrent]
    exact hrevision

/-- The publications that the insert carries. -/
def publications : Insert → List AnalysisPublication
  | .analysisPublications rows => rows
  | _ => []

def derivedRows : Insert → List (DerivedTable × DerivedRow)
  | .derived table rows => rows.map (table, ·)
  | _ => []

theorem publications_append : (LogStore.append db w).analysisPublications = db.analysisPublications ++ publications w := by
  cases w <;> simp [LogStore.append, Database.append, publications]

theorem derived_append : (LogStore.append db w).derived = db.derived ++ derivedRows w := by
  cases w <;> simp [LogStore.append, Database.append, derivedRows]

theorem rowsFinal_nodup (table : DerivedTable) : (rowsFinal table db).Nodup := by
  refine List.Nodup.map_on ?_ ((latest_nodup _).filter _)
  intro a ha b hb heq
  have hta := (List.mem_filter.mp ha).2
  have htb := (List.mem_filter.mp hb).2
  rw [decide_eq_true_eq] at hta htb
  exact Prod.ext (hta.trans htb.symm) heq

theorem mem_rowsFinal {table : DerivedTable} {row : DerivedRow} :
    row ∈ rowsFinal table db ↔ (table, row) ∈ derivedFinal db := by
  unfold rowsFinal
  rw [List.mem_map]
  constructor
  · rintro ⟨⟨found, row⟩, hmem, rfl⟩
    rw [List.mem_filter, decide_eq_true_eq] at hmem
    obtain ⟨hmem, rfl⟩ := hmem
    exact hmem
  · intro hmem
    exact ⟨(table, row), List.mem_filter.mpr ⟨hmem, by simp⟩, rfl⟩

/-- Rows written under other ids only take rows away. -/
theorem countRows_append {network : Network} {id : String} {table : DerivedTable} (revision : Option Nat)
    (h : ∀ row, (table, row) ∈ derivedRows w → ¬ (row.networkId = network ∧ row.id = id)) :
    countRows network id revision table (LogStore.append db w) ≤ countRows network id revision table db := by
  unfold countRows
  refine (List.subperm_of_subset ((rowsFinal_nodup table).filter _) ?_).length_le
  intro row hrow
  rw [List.mem_filter, decide_eq_true_eq] at hrow ⊢
  refine ⟨?_, hrow.2⟩
  have hmem := mem_rowsFinal.mp hrow.1
  unfold derivedFinal at hmem
  rw [derived_append] at hmem
  rcases mem_latest_append hmem with hold | hnew
  · exact mem_rowsFinal.mpr hold
  · exact absurd ⟨hrow.2.1, hrow.2.2.1⟩ (h row hnew)

/-! ## What each insert respects -/

/-- An insert of the block writers. -/
def Core : Insert → Prop
  | .blocks _ | .syncState _ | .facts _ _ => True
  | .analysisPublications _ | .derived _ _ => False

theorem Core.publications {w : Insert} (h : Core w) : AnalysisSeals.publications w = [] := by
  cases w with
  | analysisPublications rows => exact h.elim
  | derived table rows => exact h.elim
  | _ => rfl

theorem Core.derivedRows {w : Insert} (h : Core w) : AnalysisSeals.derivedRows w = [] := by
  cases w with
  | analysisPublications rows => exact h.elim
  | derived table rows => exact h.elim
  | _ => rfl

/-- The fence and the counts of what is sealed keep when nothing under a sealed key is written. -/
theorem Inv.append (h : Inv db) (hpublications : publications w = [])
    (hderived : ∀ table row, (table, row) ∈ derivedRows w → Unsealed (rowKey table row) db) :
    Inv (LogStore.append db w) := by
  have hsame : (LogStore.append db w).analysisPublications = db.analysisPublications := by
    rw [publications_append, hpublications, List.append_nil]
  refine ⟨?_, ?_, ?_, ?_⟩
  · rw [hsame]
    exact fun p hp => (h.fence p hp).trans (fence_append _)
  · rw [hsame]
    exact h.once
  · rw [hsame]
    exact h.invalidated
  · rw [hsame]
    intro p hp hcomplete table hfamily
    obtain ⟨n, hn, hle⟩ := h.counted p hp hcomplete table hfamily
    refine ⟨n, hn, (countRows_append _ ?_).trans hle⟩
    rintro row hrow ⟨hnetwork, hid⟩
    refine hderived table row hrow p hp ?_
    unfold AnalysisPublication.key rowKey
    rw [hnetwork, hid, hfamily]

theorem core_respects (hI : Inv db) (hw : Core w) (key : Option Key) : Respects Inv relies key db w := by
  refine ⟨hI.append hw.publications fun table row hrow => ?_, fun other _ => ?_⟩
  · rw [hw.derivedRows] at hrow
    cases hrow
  · have hsame : (LogStore.append db w).analysisPublications = db.analysisPublications := by
      rw [publications_append, hw.publications, List.append_nil]
    cases other with
    | none =>
      refine ⟨fun p hp => ?_, fun p hp _ _ => ?_⟩
      · rw [hsame]
        exact hp
      · rw [hsame] at hp
        exact hp
    | some other =>
      refine ⟨fun network => fence_append network, fun h => ?_, fun table _ revision => countRows_append _ ?_⟩
      · unfold Unsealed
        rw [hsame]
        exact h
      · intro row hrow
        rw [hw.derivedRows] at hrow
        cases hrow

/-- Rows of an attempt whose key is not sealed. -/
theorem derived_respects {key : Key} (hI : Inv db) (hunsealed : Unsealed key db) (hpublications : publications w = [])
    (hderived : ∀ table row, (table, row) ∈ derivedRows w → rowKey table row = key) :
    Respects Inv relies (some key) db w := by
  have hsame : (LogStore.append db w).analysisPublications = db.analysisPublications := by
    rw [publications_append, hpublications, List.append_nil]
  refine ⟨hI.append hpublications fun table row hrow => ?_, fun other hother => ?_⟩
  · rw [hderived table row hrow]
    exact hunsealed
  · cases other with
    | none =>
      refine ⟨fun p hp => ?_, fun p hp _ _ => ?_⟩
      · rw [hsame]
        exact hp
      · rw [hsame] at hp
        exact hp
    | some other =>
      have hne : other ≠ key := fun h => (hother.resolve_left (by simp)) (congrArg some h)
      refine ⟨fun network => fence_append network, fun h => ?_, fun table hfamily revision => countRows_append _ ?_⟩
      · unfold Unsealed
        rw [hsame]
        exact h
      · rintro row hrow ⟨hnetwork, hid⟩
        refine hne ?_
        rw [← hderived table row hrow]
        unfold rowKey
        rw [hnetwork, hid, hfamily]

/-- The first seal of a key, over counted rows. -/
theorem seal_respects {p : AnalysisPublication} (hI : Inv db) (hunsealed : Unsealed (AnalysisPublication.key p) db)
    (hcomplete : p.status = .complete) (hfence : p.sourceRevision ≤ (currentState p.networkId db).revision)
    (hcounted : ∀ table, DerivedTable.family table = p.family → ∃ n, (table, n) ∈ p.rowCounts ∧
      countRows p.networkId p.publicationId (some p.outputRevision) table db ≤ n) :
    Respects Inv relies (some (AnalysisPublication.key p)) db (.analysisPublications [p]) := by
  have hcounts : ∀ network id table revision,
      countRows network id (some revision) table (LogStore.append db (.analysisPublications [p])) ≤
        countRows network id (some revision) table db :=
    fun network id table revision => countRows_append _ fun row hrow => by cases hrow
  refine ⟨⟨?_, ?_, ?_, ?_⟩, fun other hother => ?_⟩
  · intro q hq
    rw [publications_append] at hq
    refine Nat.le_trans ?_ (fence_append q.networkId)
    rcases List.mem_append.mp hq with hq | hq
    · exact hI.fence q hq
    · obtain rfl := List.mem_singleton.mp hq
      exact hfence
  · intro key
    rw [publications_append, List.filter_append, List.length_append]
    by_cases hkey : AnalysisPublication.key p = key
    · have hnone : (db.analysisPublications.filter fun q => AnalysisPublication.key q = key ∧ q.status = .complete) = [] := by
        refine List.filter_eq_nil_iff.mpr fun q hq => ?_
        rw [decide_eq_true_eq]
        exact fun h => hunsealed q hq (h.1.trans hkey.symm)
      rw [hnone, List.length_nil, Nat.zero_add]
      exact List.length_filter_le _ [p]
    · have hnone : ([p].filter fun q => AnalysisPublication.key q = key ∧ q.status = .complete) = [] := by
        refine List.filter_eq_nil_iff.mpr fun q hq => ?_
        obtain rfl := List.mem_singleton.mp hq
        rw [decide_eq_true_eq]
        exact fun h => hkey h.1
      show _ + ([p].filter _).length ≤ 1
      rw [hnone]
      exact hI.once key
  · intro q hq hinvalid c hc hkey hc'
    rw [publications_append] at hq hc
    rcases List.mem_append.mp hq with hqold | hq
    · rcases List.mem_append.mp hc with hc | hc
      · exact hI.invalidated q hqold hinvalid c hc hkey hc'
      · obtain rfl := List.mem_singleton.mp hc
        exact absurd hkey.symm (hunsealed q hqold)
    · obtain rfl := List.mem_singleton.mp hq
      rw [hcomplete] at hinvalid
      cases hinvalid
  · intro q hq hq' table hfamily
    rw [publications_append] at hq
    rcases List.mem_append.mp hq with hq | hq
    · obtain ⟨n, hn, hle⟩ := hI.counted q hq hq' table hfamily
      exact ⟨n, hn, (hcounts _ _ _ _).trans hle⟩
    · obtain rfl := List.mem_singleton.mp hq
      obtain ⟨n, hn, hle⟩ := hcounted table hfamily
      exact ⟨n, hn, (hcounts _ _ _ _).trans hle⟩
  · cases other with
    | none =>
      refine ⟨fun q hq => ?_, fun q hq _ hsealed => ?_⟩
      · rw [publications_append]
        exact List.mem_append_left _ hq
      · rw [publications_append] at hq
        rcases List.mem_append.mp hq with hq | hq
        · exact hq
        · obtain rfl := List.mem_singleton.mp hq
          obtain ⟨c, hc, hkey⟩ := hsealed
          exact absurd hkey (hunsealed c hc)
    | some other =>
      have hne : other ≠ AnalysisPublication.key p := fun h => (hother.resolve_left (by simp)) (congrArg some h)
      refine ⟨fun network => fence_append network, fun h q hq => ?_, fun table _ revision => hcounts _ _ _ _⟩
      rw [publications_append] at hq
      rcases List.mem_append.mp hq with hq | hq
      · exact h q hq
      · obtain rfl := List.mem_singleton.mp hq
        exact Ne.symm hne

/-- A publication is taken back over what its key holds. -/
theorem invalidation_respects {p q : AnalysisPublication} (hI : Inv db) (hp : p ∈ db.analysisPublications)
    (hkey : AnalysisPublication.key p = AnalysisPublication.key q) (hinvalid : q.status = .invalidated)
    (hsource : q.sourceRevision = p.sourceRevision) (hrevision : ∀ c ∈ db.analysisPublications,
      AnalysisPublication.key c = AnalysisPublication.key q → c.status = .complete → c.revision < q.revision) :
    Respects Inv relies none db (.analysisPublications [q]) := by
  have hcounts : ∀ network id table revision,
      countRows network id (some revision) table (LogStore.append db (.analysisPublications [q])) ≤
        countRows network id (some revision) table db :=
    fun network id table revision => countRows_append _ fun row hrow => by cases hrow
  refine ⟨⟨?_, ?_, ?_, ?_⟩, fun other _ => ?_⟩
  · intro c hc
    rw [publications_append] at hc
    refine Nat.le_trans ?_ (fence_append c.networkId)
    rcases List.mem_append.mp hc with hc | hc
    · exact hI.fence c hc
    · obtain rfl := List.mem_singleton.mp hc
      have hnetwork : p.networkId = c.networkId := congrArg Key.networkId hkey
      rw [hsource, ← hnetwork]
      exact hI.fence p hp
  · intro key
    have hnone : ([q].filter fun c => AnalysisPublication.key c = key ∧ c.status = .complete) = [] := by
      refine List.filter_eq_nil_iff.mpr fun c hc => ?_
      obtain rfl := List.mem_singleton.mp hc
      rw [decide_eq_true_eq, hinvalid]
      exact fun h => by cases h.2
    rw [publications_append, List.filter_append, List.length_append]
    show _ + ([q].filter _).length ≤ 1
    rw [hnone]
    exact hI.once key
  · intro c hc hc' d hd hd' hdone
    rw [publications_append] at hc hd
    have hdold : d ∈ db.analysisPublications := by
      rcases List.mem_append.mp hd with hd | hd
      · exact hd
      · obtain rfl := List.mem_singleton.mp hd
        rw [hinvalid] at hdone
        cases hdone
    rcases List.mem_append.mp hc with hc | hc
    · exact hI.invalidated c hc hc' d hdold hd' hdone
    · obtain rfl := List.mem_singleton.mp hc
      exact hrevision d hdold hd' hdone
  · intro c hc hc' table hfamily
    rw [publications_append] at hc
    rcases List.mem_append.mp hc with hc | hc
    · obtain ⟨n, hn, hle⟩ := hI.counted c hc hc' table hfamily
      exact ⟨n, hn, (hcounts _ _ _ _).trans hle⟩
    · obtain rfl := List.mem_singleton.mp hc
      rw [hinvalid] at hc'
      cases hc'
  · cases other with
    | none =>
      refine ⟨fun c hc => ?_, fun c hc hdone _ => ?_⟩
      · rw [publications_append]
        exact List.mem_append_left _ hc
      · rw [publications_append] at hc
        rcases List.mem_append.mp hc with hc | hc
        · exact hc
        · obtain rfl := List.mem_singleton.mp hc
          rw [hinvalid] at hdone
          cases hdone
    | some other =>
      refine ⟨fun network => fence_append network, fun h c hc => ?_, fun table _ revision => hcounts _ _ _ _⟩
      rw [publications_append] at hc
      rcases List.mem_append.mp hc with hc | hc
      · exact h c hc
      · obtain rfl := List.mem_singleton.mp hc
        rw [← hkey]
        exact h p hp

end

/-! ## Steps of the programs -/

section
variable {α : Type} {key : Option Key} {K : Database → Prop} {db : Database}

/-- What others leave alone holds after a part that inserts nothing. -/
theorem under_idle {p : Writer α} (hp : Only (fun _ => False) p)
    (hK : ∀ s t, relies key s t → K s → K t) (hs : K db) :
    Under (relies key) Inv (fun _ _ => True) (Respects Inv relies key) (fun _ t => K t) p db :=
  under_only hp hs (fun s t hst _ h => hK s t hst h) fun _ _ h => h.elim

theorem under_check {c : Prop} [Decidable c] {e : String} {Q : Unit → Database → Prop} (h : c → Q () db) :
    Under (relies key) Inv (fun _ _ => True) (Respects Inv relies key) Q (ensure c e : Writer Unit) db := by
  unfold ensure
  split
  · rename_i hc
    exact h hc
  · trivial

theorem idle_identity (networks : List Network) : Only (fun _ => False) (insertIdentity networks) := by
  cases networks with
  | nil => exact only_pure ()
  | cons first rest => exact (only_ensure _ _).bind fun _ => (only_read _).bind fun _ => only_ensure _ _

/-- A batch of rows goes in chunk by chunk. -/
theorem under_insert {ρ : Type} {validate : ρ → Except String Unit} {network : ρ → Network} {chunk : List ρ → Insert}
    {rows : List ρ} (hK : ∀ s t, relies key s t → K s → K t) (hs : K db)
    (h : ∀ part ⊆ rows, ∀ t, Inv t → K t →
      Respects Inv relies key t (chunk part) ∧ K (LogStore.append t (chunk part))) :
    Under (relies key) Inv (fun _ _ => True) (Respects Inv relies key) (fun _ t => K t)
      (insert validate network chunk rows) db := by
  refine under_lift fun _ _ => Under.bind ((under_idle (idle_identity _) hK hs).weaken fun _ t ht => ?_)
  refine AmlReal.Foundations.Interleaving.under_forM ht fun part hpart u hu => ?_
  have hsubset : part ⊆ rows := by
    intro row hrow
    rw [← chunks_flatten (by omega : 0 < 1000) rows]
    exact List.mem_flatten.mpr ⟨part, hpart, hrow⟩
  exact fun v huv hI _ => h part hsubset v hI (hK u v huv hu)

/-- One publication goes in as it is. -/
theorem under_publication {p : AnalysisPublication} (hK : ∀ s t, relies key s t → K s → K t) (hs : K db)
    (h : ∀ t, Inv t → K t → Respects Inv relies key t (.analysisPublications [p])) :
    Keeps Inv relies key (insertPublications [p]) db := by
  refine under_lift fun _ _ => Under.bind ((under_idle (idle_identity _) hK hs).weaken fun _ t ht => ?_)
  exact fun u htu hI _ => ⟨h u hI (hK t u htu ht), trivial⟩

end

/-! ## The attempt -/

/-- How far an attempt has come: its source is not ahead of the fence, its key
is not sealed, and the tables it has checked hold no more rows than it counted. -/
structure Progress (source : State) (key : Key) (revision : Nat) (checked : List (DerivedTable × Nat)) (db : Database) :
    Prop where
  fence : source.revision ≤ (currentState source.networkId db).revision
  unsealed : Unsealed key db
  bounded : ∀ entry ∈ checked, DerivedTable.family entry.1 = key.family ∧
    countRows key.networkId key.id (some revision) entry.1 db ≤ entry.2

section
variable {source : State} {family : Family} {id : String} {revision : Nat} {key : Key}
  {checked : List (DerivedTable × Nat)} {db : Database}

theorem Progress.stable {s t : Database} (hst : relies (some key) s t) (h : Progress source key revision checked s) :
    Progress source key revision checked t where
  fence := h.fence.trans (hst.fence _)
  unsealed := hst.unsealed h.unsealed
  bounded entry hentry := by
    obtain ⟨hfamily, hle⟩ := h.bounded entry hentry
    exact ⟨hfamily, (hst.rows entry.1 hfamily revision).trans hle⟩

/-- The rows of the attempt are written under its key. -/
theorem checkRow_key {rules : DerivedTable → DerivedRow → Except String Unit} {table : DerivedTable} {row : DerivedRow}
    (h : checkRow rules source id revision table row = .ok ()) :
    rowKey table row = ⟨source.networkId, DerivedTable.family table, id⟩ := by
  obtain ⟨_, _, h⟩ := bind_ok h
  obtain ⟨_, h, _⟩ := bind_ok h
  obtain ⟨hnetwork, hid, _⟩ := ensure_ok h
  unfold rowKey
  rw [hnetwork, hid]

theorem Batch.mem_rows {batch : Batch} {entry : DerivedTable × List DerivedRow} (h : entry ∈ batch.tables) :
    batch.rows entry.1 = entry.2 := by
  have hlookup : ∀ {tables : List (DerivedTable × List DerivedRow)}, (tables.map Prod.fst).Nodup → entry ∈ tables →
      tables.lookup entry.1 = some entry.2 := by
    intro tables hnodup hmem
    induction tables with
    | nil => cases hmem
    | cons first rest ih =>
      obtain ⟨hfirst, hrest⟩ := List.nodup_cons.mp hnodup
      rcases List.mem_cons.mp hmem with rfl | hmem
      · rw [List.lookup_cons_self]
      · have hne : entry.1 ≠ first.1 := fun heq => hfirst (heq ▸ List.mem_map_of_mem hmem)
        rw [List.lookup_cons, beq_false_of_ne hne]
        exact ih hrest hmem
  unfold Batch.rows
  rw [hlookup batch.nodup h]
  rfl

/-- The counts are those of every table of the family. -/
theorem mem_counts {batch : Batch} {table : DerivedTable} (h : DerivedTable.family table = family) :
    (table, (batch.rows table).length) ∈ batch.counts family := by
  refine List.mem_map.mpr ⟨table, ?_, rfl⟩
  rw [List.mem_insertionSort]
  exact mem_tables.mpr h

theorem counts_family {batch : Batch} {entry : DerivedTable × Nat} (h : entry ∈ batch.counts family) :
    DerivedTable.family entry.1 = family := by
  obtain ⟨table, htable, rfl⟩ := List.mem_map.mp h
  rw [List.mem_insertionSort] at htable
  exact mem_tables.mp htable

/-- Between two looks at the fence nothing is asked of it. -/
theorem under_unchanged {α : Type} {K : Database → Prop} {Q : α → Database → Prop} {snapshot : Snapshot}
    {f : Unit → Writer α} (hK : ∀ s t, relies (some key) s t → K s → K t) (hs : K db)
    (h : ∀ t, K t → currentState snapshot.state.networkId t = snapshot.state →
      Under (relies (some key)) Inv (fun _ _ => True) (Respects Inv relies (some key)) Q (f ()) t) :
    Under (relies (some key)) Inv (fun _ _ => True) (Respects Inv relies (some key)) Q
      (unchanged snapshot >>= f) db := by
  refine Under.bind (under_read fun t hst _ => ?_)
  exact under_check fun hfound => h t (hK db t hst hs) hfound

/-- Each table is counted, and what was counted stays bounded. -/
theorem under_counts (rest : List (DerivedTable × Nat)) (hrest : ∀ entry ∈ rest, DerivedTable.family entry.1 = family)
    (h : Progress source ⟨source.networkId, family, id⟩ revision checked db) :
    Under (relies (some ⟨source.networkId, family, id⟩)) Inv (fun _ _ => True)
      (Respects Inv relies (some ⟨source.networkId, family, id⟩))
      (fun _ t => Progress source ⟨source.networkId, family, id⟩ revision (checked ++ rest) t)
      (rest.forM fun entry => do
        let actual ← read (countRows source.networkId id (some revision) entry.1)
        ensure (actual = entry.2) "analysis output count verification failed") db := by
  induction rest generalizing checked db with
  | nil =>
    rw [List.append_nil]
    exact h
  | cons entry rest ih =>
    obtain ⟨hfamily, hrest⟩ := List.forall_mem_cons.mp hrest
    refine Under.bind (under_read fun t hst _ => ?_)
    refine under_check fun hcount => ?_
    have ht := h.stable hst
    have hnext : Progress source ⟨source.networkId, family, id⟩ revision (checked ++ [entry]) t := by
      refine ⟨ht.fence, ht.unsealed, fun other hother => ?_⟩
      rcases List.mem_append.mp hother with hother | hother
      · exact ht.bounded other hother
      · obtain rfl := List.mem_singleton.mp hother
        exact ⟨hfamily, Nat.le_of_eq hcount⟩
    have hgo := ih hrest hnext
    rw [List.append_assoc] at hgo
    exact hgo

theorem idle_dependency (parent : DerivedRow) : Only (fun _ => False) (checkDependency source family parent) := by
  unfold checkDependency
  split
  · split
    · exact only_pure ()
    · exact (only_read _).bind fun _ => only_ensure _ _
  · exact only_pure ()

/-- A key without a current publication has none. -/
theorem unsealed_of_current
    (h : ((publicationsCurrent db).filter fun p => AnalysisPublication.key p = key).length = 0) : Unsealed key db := by
  intro p hp hkey
  obtain ⟨m, hm, hsame, _⟩ : ∃ m ∈ publicationsCurrent db,
      AnalysisPublication.key m = AnalysisPublication.key p ∧ p.revision ≤ m.revision := exists_mem_latest hp
  have hfilter := List.length_eq_zero_iff.mp h
  rw [List.filter_eq_nil_iff] at hfilter
  exact hfilter m hm (decide_eq_true (hsame.trans hkey))

theorem publishAnalysis_keeps {rules : DerivedTable → DerivedRow → Except String Unit} {snapshot : Snapshot}
    {batch : Batch} : Keeps Inv relies (some ⟨snapshot.state.networkId, family, id⟩)
      (publishAnalysis rules snapshot family id revision batch) db := by
  refine under_ensure fun _ => under_ensure fun hbatch => under_lift fun _ hrows => ?_
  refine under_lift fun parent _ => under_lift fun _ _ => ?_
  have hkeyed : ∀ entry ∈ batch.tables, ∀ row ∈ entry.2,
      rowKey entry.1 row = ⟨snapshot.state.networkId, family, id⟩ := by
    intro entry hentry row hrow
    have htable := hbatch.1 entry hentry
    obtain ⟨_, hcheck, _⟩ := bind_ok (forM_ok hrows entry.1 htable)
    rw [Batch.mem_rows hentry] at hcheck
    rw [checkRow_key (forM_ok hcheck row hrow), mem_tables.mp htable]
  -- the source is the current one when it is first looked at
  refine under_unchanged (K := fun _ => True) (fun _ _ _ _ => trivial) trivial fun t _ hsource => ?_
  have hfence : snapshot.state.revision ≤ (currentState snapshot.state.networkId t).revision := by rw [hsource]
  have hstable : ∀ s u, relies (some ⟨snapshot.state.networkId, family, id⟩) s u →
      snapshot.state.revision ≤ (currentState snapshot.state.networkId s).revision →
      snapshot.state.revision ≤ (currentState snapshot.state.networkId u).revision :=
    fun s u hsu h => h.trans (Allows.fence hsu _)
  refine Under.bind ((under_idle (idle_dependency parent) hstable hfence).weaken fun _ u hfence => ?_)
  refine under_read fun v huv _ => under_ensure fun hnone => ?_
  have hstart : Progress snapshot.state ⟨snapshot.state.networkId, family, id⟩ revision [] v :=
    ⟨hfence.trans (Allows.fence huv _), unsealed_of_current hnone, fun _ h => by cases h⟩
  refine Under.bind ((under_idle (Only.forM (fun _ => (only_read _).bind fun _ => only_ensure _ _) _)
    (fun _ _ hst h => h.stable hst) hstart).weaken fun _ x hx => ?_)
  refine Under.bind (Under.weaken (Q := fun _ y =>
    Progress snapshot.state ⟨snapshot.state.networkId, family, id⟩ revision [] y) ?_ fun _ y hy => ?_)
  · refine AmlReal.Foundations.Interleaving.under_forM hx fun entry hentry y hy => ?_
    refine under_insert (fun _ _ hst h => h.stable hst) hy fun part hpart z hI hz => ?_
    have hpart : ∀ table row, (table, row) ∈ derivedRows (.derived entry.1 part) →
        rowKey table row = ⟨snapshot.state.networkId, family, id⟩ := by
      intro table row hrow
      obtain ⟨found, hfound, heq⟩ := List.mem_map.mp hrow
      cases heq
      exact hkeyed entry hentry row (hpart hfound)
    exact ⟨derived_respects hI hz.unsealed rfl hpart, hz.fence.trans (fence_append _), hz.unsealed,
      fun _ h => by cases h⟩
  · refine Under.bind ((under_counts (batch.counts family) (fun _ h => counts_family h) hy).weaken
      fun _ z hz => ?_)
    rw [List.nil_append] at hz
    refine under_unchanged (fun _ _ hst h => h.stable hst) hz fun z hz _ => ?_
    refine under_publication (fun _ _ hst h => h.stable hst) hz fun last hI hlast => ?_
    refine seal_respects hI hlast.unsealed rfl hlast.fence fun table hfamily => ?_
    exact ⟨_, mem_counts hfamily, (hlast.bounded _ (mem_counts hfamily)).2⟩

theorem invalidateAnalysis_keeps {network : Network} :
    Keeps Inv relies none (invalidateAnalysis network family id revision) db := by
  refine Under.bind ((under_idle (K := fun _ => True) ((only_read _).bind fun _ => only_ensure _ _)
    (fun _ _ _ _ => trivial) trivial).weaken fun _ s _ => ?_)
  refine under_read fun t _ _ => under_lift fun _ _ => under_lift fun row hrow => under_ensure fun hnewer => ?_
  have hcurrent := List.mem_filter.mp (List.mem_of_mem_head? (context_ok hrow))
  refine under_publication (K := fun u => row ∈ u.analysisPublications ∧ ∀ c ∈ u.analysisPublications,
    AnalysisPublication.key c = AnalysisPublication.key row → c.status = .complete → c.revision ≤ row.revision)
    ?_ ⟨mem_of_mem_latest hcurrent.1, fun c hc hkey _ => latest_greatest hcurrent.1 hc hkey⟩ ?_
  · rintro s u hsu ⟨hmem, hle⟩
    refine ⟨hsu.stay row hmem, fun c hc hkey hdone => ?_⟩
    exact hle c (hsu.once c hc hdone ⟨row, hmem, hkey.symm⟩) hkey hdone
  · rintro u hI ⟨hmem, hle⟩
    refine invalidation_respects hI hmem rfl rfl rfl fun c hc hkey hdone => ?_
    exact Nat.lt_of_le_of_lt (hle c hc hkey hdone) hnewer.2

end

/-! ## Runs -/

/-- The programs of the warehouse: attempts under their key, and beside them
those that take publications back and those that write blocks. -/
inductive Starts (rules : DerivedTable → DerivedRow → Except String Unit) : Option Key → Writer Unit → Prop
  | publish (snapshot : Snapshot) (family : Family) (id : String) (outputRevision : Nat) (batch : Batch) :
      Starts rules (some ⟨snapshot.state.networkId, family, id⟩)
        (publishAnalysis rules snapshot family id outputRevision batch)
  | invalidate (network : Network) (family : Family) (id : String) (revision : Nat) :
      Starts rules none (invalidateAnalysis network family id revision)
  | blocks (p : Writer Unit) : Only Core p → Starts rules none p

theorem starts_keeps {rules : DerivedTable → DerivedRow → Except String Unit} {key : Option Key} {p : Writer Unit}
    (h : Starts rules key p) (db : Database) : Keeps Inv relies key p db := by
  cases h with
  | publish => exact publishAnalysis_keeps
  | invalidate => exact invalidateAnalysis_keeps
  | blocks p hp =>
    exact under_only (K := fun _ => True) hp trivial (fun _ _ _ _ _ => trivial)
      fun t w hw hI _ => ⟨core_respects hI hw none, trivial⟩

abbrev Runs (rules : DerivedTable → DerivedRow → Except String Unit) (network : Network)
    (pool : Pool Database Insert String Unit Key) : Prop :=
  Reachable (Starts rules) (Database.empty network) pool

section
variable {rules : DerivedTable → DerivedRow → Except String Unit} {network : Network}
  {pool next : Pool Database Insert String Unit Key}

theorem Runs.inv (h : Runs rules network pool) : Inv pool.store :=
  (Reachable.invariant h relies_rely (inv_empty network) fun _ _ hstart s _ => starts_keeps hstart s).1

/-! ## What readers see -/

variable {db : Database} {table : DerivedTable} {row : DerivedRow}

theorem visible_sublist (db : Database) (table : DerivedTable) : (visible db table).Sublist (rowsFinal table db) := by
  cases table with
  | clusterRuns => exact List.filter_sublist.trans List.filter_sublist
  | clusterClaims => exact List.filter_sublist.trans List.filter_sublist
  | clusterMemberships => exact List.filter_sublist.trans List.filter_sublist
  | clusterVersions => exact List.filter_sublist.trans List.filter_sublist
  | exposureRuns => exact List.filter_sublist.trans List.filter_sublist
  | exposurePaths => exact List.filter_sublist.trans List.filter_sublist
  | addressExposures => exact List.filter_sublist.trans List.filter_sublist
  | walletRiskAssessments => exact List.filter_sublist.trans List.filter_sublist
  | walletRiskSignals => exact List.filter_sublist.trans List.filter_sublist

theorem sealed_of_sealedRows (h : row ∈ sealedRows table db) : ∃ p ∈ publicationsVisible db, Seals p table row := by
  obtain ⟨p, hp, hseals⟩ := List.any_eq_true.mp (List.mem_filter.mp h).2
  exact ⟨p, hp, of_decide_eq_true hseals⟩

theorem sealed_of_sourcedRows (h : row ∈ sourcedRows table db) : ∃ p ∈ publicationsVisible db, Seals p table row := by
  obtain ⟨p, hp, hseals⟩ := List.any_eq_true.mp (List.mem_filter.mp h).2
  exact ⟨p, hp, (of_decide_eq_true hseals).1⟩

/-- A visible row is a row that a visible publication seals. -/
theorem visible_sealed (h : row ∈ visible db table) : ∃ p ∈ publicationsVisible db, Seals p table row := by
  cases table with
  | clusterRuns => exact sealed_of_sourcedRows (List.mem_filter.mp h).1
  | clusterClaims => exact sealed_of_sealedRows (List.mem_filter.mp h).1
  | clusterMemberships => exact sealed_of_sealedRows (List.mem_filter.mp h).1
  | clusterVersions => exact sealed_of_sealedRows (List.mem_filter.mp h).1
  | exposureRuns => exact sealed_of_sourcedRows (List.mem_filter.mp h).1
  | exposurePaths => exact sealed_of_sealedRows (List.mem_filter.mp h).1
  | addressExposures => exact sealed_of_sourcedRows (List.mem_filter.mp h).1
  | walletRiskAssessments => exact sealed_of_sourcedRows (List.mem_filter.mp h).1
  | walletRiskSignals => exact sealed_of_sourcedRows (List.mem_filter.mp h).1

/-- A visible publication is the only one of its key. -/
theorem Inv.sole (hI : Inv db) {p : AnalysisPublication} (hp : p ∈ publicationsVisible db) :
    db.analysisPublications.filter (fun q => AnalysisPublication.key q = AnalysisPublication.key p) = [p] := by
  obtain ⟨hcurrent, hvisible⟩ := List.mem_filter.mp hp
  rw [decide_eq_true_eq] at hvisible
  have hmem := mem_of_mem_latest hcurrent
  have hcomplete : ∀ q ∈ db.analysisPublications,
      AnalysisPublication.key q = AnalysisPublication.key p → q.status = .complete := by
    intro q hq hkey
    cases hstatus : q.status with
    | complete => rfl
    | invalidated =>
      have hle := latest_greatest hcurrent hq hkey
      have hlt := hI.invalidated q hq hstatus p hmem hkey.symm hvisible.1
      omega
  have hsame : db.analysisPublications.filter (fun q => AnalysisPublication.key q = AnalysisPublication.key p) =
      db.analysisPublications.filter fun q =>
        AnalysisPublication.key q = AnalysisPublication.key p ∧ q.status = .complete := by
    refine List.filter_congr fun q hq => ?_
    rw [decide_eq_decide]
    exact ⟨fun hkey => ⟨hkey, hcomplete q hq hkey⟩, fun h => h.1⟩
  have hfound : p ∈ db.analysisPublications.filter fun q =>
      AnalysisPublication.key q = AnalysisPublication.key p ∧ q.status = .complete :=
    List.mem_filter.mpr ⟨hmem, decide_eq_true ⟨rfl, hvisible.1⟩⟩
  have honce := hI.once (AnalysisPublication.key p)
  rw [hsame]
  generalize db.analysisPublications.filter (fun q =>
    AnalysisPublication.key q = AnalysisPublication.key p ∧ q.status = .complete) = rows at hfound honce
  obtain ⟨q, rfl⟩ := List.length_eq_one_iff.mp (Nat.le_antisymm honce (List.length_pos_of_mem hfound))
  rw [List.mem_singleton.mp hfound]

/-- The seal of a visible row is alone under its key. -/
theorem visible_sole (h : Runs rules network pool) (hrow : row ∈ visible pool.store table) :
    ∃ p ∈ publicationsVisible pool.store, AnalysisPublication.key p = rowKey table row ∧
      p.outputRevision = row.revision ∧
      pool.store.analysisPublications.filter (fun q => AnalysisPublication.key q = rowKey table row) = [p] := by
  obtain ⟨p, hp, hkey, hrevision⟩ := visible_sealed hrow
  refine ⟨p, hp, hkey, hrevision, ?_⟩
  rw [← hkey]
  exact h.inv.sole hp

/-- A visible seal is complete and was set over the fence that stands. -/
theorem visible_fence {db : Database} {p : AnalysisPublication} (hp : p ∈ publicationsVisible db) :
    p.status = .complete ∧ (currentState p.networkId db).initialized = 1 ∧
      p.sourceRevision = (currentState p.networkId db).revision ∧
      p.asOfBlock ≤ (currentState p.networkId db).lastBlockNumber := by
  obtain ⟨_, hvisible⟩ := List.mem_filter.mp hp
  rw [decide_eq_true_eq] at hvisible
  obtain ⟨hcomplete, hfence, _⟩ := hvisible
  obtain ⟨s, hs, hs'⟩ := List.any_eq_true.mp hfence
  rw [decide_eq_true_eq] at hs'
  obtain ⟨hsn, hsr, hsi, hsl⟩ := hs'
  have hstate : s = currentState p.networkId db := by
    rw [hsn]
    exact eq_currentState hs
  rw [← hstate]
  exact ⟨hcomplete, hsi, hsr, hsl⟩

/-- A visible row belongs to a complete seal that is alone under its key, was set over the
fence that stands, names a canonical block, and counted no fewer rows than are visible. -/
theorem visible_rows_sealed (h : Runs rules network pool) (hrow : row ∈ visible pool.store table) :
    ∃ p, pool.store.analysisPublications.filter (fun q => AnalysisPublication.key q = rowKey table row) = [p] ∧
      p.status = .complete ∧ p.outputRevision = row.revision ∧
      (currentState row.networkId pool.store).initialized = 1 ∧
      p.sourceRevision = (currentState row.networkId pool.store).revision ∧
      p.asOfBlock ≤ (currentState row.networkId pool.store).lastBlockNumber ∧
      (∃ b ∈ ingestedBlocksCanonical pool.store, b.networkId = row.networkId ∧ b.blockNumber = p.asOfBlock ∧
        b.blockHash = p.blockHash) ∧
      ∃ n, (table, n) ∈ p.rowCounts ∧
        ((visible pool.store table).filter fun other => rowKey table other = rowKey table row).length ≤ n := by
  obtain ⟨p, hp, hkey, hrevision, hsole⟩ := visible_sole h hrow
  obtain ⟨hcomplete, hinit, hfence, hlast⟩ := visible_fence hp
  have hnetwork : p.networkId = row.networkId := congrArg Key.networkId hkey
  rw [hnetwork] at hinit hfence hlast
  obtain ⟨hcurrent, hvisible⟩ := List.mem_filter.mp hp
  rw [decide_eq_true_eq] at hvisible
  obtain ⟨b, hb, hb'⟩ := List.any_eq_true.mp hvisible.2.2
  rw [decide_eq_true_eq] at hb'
  refine ⟨p, hsole, hcomplete, hrevision, hinit, hfence, hlast,
    ⟨b, hb, hb'.1.symm.trans hnetwork, hb'.2.1.symm, hb'.2.2.symm⟩, ?_⟩
  obtain ⟨n, hn, hle⟩ := h.inv.counted p (mem_of_mem_latest hcurrent) hcomplete table (congrArg Key.family hkey).symm
  refine ⟨n, hn, Nat.le_trans ?_ hle⟩
  unfold countRows
  rw [← List.countP_eq_length_filter, ← List.countP_eq_length_filter]
  refine Nat.le_trans ?_ ((visible_sublist pool.store table).countP_le)
  refine List.countP_mono_left fun other hother hsame => ?_
  rw [decide_eq_true_eq] at hsame ⊢
  -- every visible row of the key is sealed by the one publication of the key
  obtain ⟨q, hq, hqkey, hqrevision, hqsole⟩ := visible_sole h hother
  rw [hsame, hsole] at hqsole
  obtain rfl := (List.cons.inj hqsole).1
  have hkeys := hsame.trans hkey.symm
  refine ⟨congrArg Key.networkId hkeys, congrArg Key.id hkeys, fun r hr => ?_⟩
  obtain rfl := Option.some.inj hr
  exact hqrevision.symm

/-- An id that was taken back, or whose source the fence has left, is not visible at any later time. -/
theorem dead_seals_stay_dead (h : Runs rules network pool) (hlater : Later (Starts rules) pool next)
    {q : AnalysisPublication} (hq : q ∈ pool.store.analysisPublications)
    (hdead : q.status = .invalidated ∨ q.sourceRevision < (currentState q.networkId pool.store).revision)
    (table : DerivedTable) : ∀ row ∈ visible next.store table, rowKey table row ≠ AnalysisPublication.key q := by
  intro row hrow hkey
  obtain ⟨p, hp, _, _, hsole⟩ := visible_sole (h.trans hlater) hrow
  obtain ⟨hcomplete, _, hsource, _⟩ := visible_fence hp
  have hstays : q ∈ next.store.analysisPublications := by
    refine hlater.extends.keep (P := fun s : Database => q ∈ s.analysisPublications) (fun s w hs => ?_) hq
    rw [publications_append]
    exact List.mem_append_left _ hs
  have hmem : q ∈ next.store.analysisPublications.filter fun p => AnalysisPublication.key p = rowKey table row :=
    List.mem_filter.mpr ⟨hstays, decide_eq_true hkey.symm⟩
  rw [hsole] at hmem
  obtain rfl := List.mem_singleton.mp hmem
  rcases hdead with hinvalid | hleft
  · rw [hinvalid] at hcomplete
    cases hcomplete
  · have hfence : (currentState q.networkId pool.store).revision ≤ (currentState q.networkId next.store).revision :=
      hlater.extends.keep (P := fun s : Database => (currentState q.networkId pool.store).revision ≤
        (currentState q.networkId s).revision) (fun _ _ hs => hs.trans (fence_append _)) (Nat.le_refl _)
    omega

end

/-! A block, a cluster run over it, and the run taken back. -/

def sampleSource : State := ⟨.bitcoin, 2, 1, 0, 0, sampleHash 'a', 0, 1⟩

theorem sampleSource_valid : snapshotFromState sampleSource = .ok sampleSource := by decide +kernel

def sampleRunRow : DerivedRow :=
  ⟨.bitcoin, "run", ["run"], 7, 1, some 2, some 0, some "complete", some 0, some 1, none, none, none⟩

def sampleBatch : Batch := ⟨[(.clusterRuns, [sampleRunRow])], List.nodup_singleton _⟩

def writeSource : Writer Unit := do
  write (.blocks [blockRow (sampleBlock 0 'a' '0' 2) []])
  write (.syncState [sampleSource])

def publishSample : Writer Unit :=
  publishAnalysis (fun _ _ => .ok ()) ⟨sampleSource, sampleSource_valid⟩ .cluster "run" 7 sampleBatch

def withSource : Database := replay (Database.empty .bitcoin) (writeSource.exec (Database.empty .bitcoin)).1

def withRun : Database := replay withSource (publishSample.exec withSource).1

def withoutRun : Database :=
  replay withRun ((invalidateAnalysis .bitcoin .cluster "run" 8).exec withRun).1

theorem withRun_reachable : Runs (fun _ _ => .ok ()) .bitcoin ⟨withRun, []⟩ := by
  have hsource : Runs (fun _ _ => .ok ()) .bitcoin ⟨withSource, []⟩ :=
    Reachable.run Relation.ReflTransGen.refl (.blocks writeSource ⟨trivial, trivial, trivial⟩)
  exact hsource.run (.publish ⟨sampleSource, sampleSource_valid⟩ .cluster "run" 7 sampleBatch)

theorem sample_run_sealed : ∃ p, withRun.analysisPublications.filter (fun q => AnalysisPublication.key q =
      rowKey .clusterRuns sampleRunRow) = [p] ∧ p.status = .complete ∧ p.outputRevision = 7 := by
  have hrow : sampleRunRow ∈ visible withRun .clusterRuns := by decide +kernel
  obtain ⟨p, hsole, hcomplete, hrevision, _⟩ := visible_rows_sealed withRun_reachable hrow
  exact ⟨p, hsole, hcomplete, hrevision⟩

theorem sample_run_gone : (visible withoutRun .clusterRuns).filter (fun row =>
    rowKey .clusterRuns row = ⟨.bitcoin, .cluster, "run"⟩) = [] := by
  have hmem : { sealRow sampleSource .cluster "run" 7 sampleRunRow (sampleBatch.counts .cluster) with
      status := .invalidated, revision := 8 } ∈ withoutRun.analysisPublications := by decide +kernel
  have hreachable : Runs (fun _ _ => .ok ()) .bitcoin ⟨withoutRun, []⟩ :=
    withRun_reachable.run (.invalidate .bitcoin .cluster "run" 8)
  have hgone := dead_seals_stay_dead hreachable Relation.ReflTransGen.refl hmem (Or.inl rfl) .clusterRuns
  exact List.filter_eq_nil_iff.mpr fun row hrow hkey => hgone row hrow (of_decide_eq_true hkey)

end AmlReal.Warehouse.AnalysisSeals
