import Mathlib.Data.List.Basic
import Mathlib.Data.List.ReduceOption
import Mathlib.Tactic.Linarith
import AmlReal.Ethereum.Risk
import AmlReal.Foundations.JoinedText

/-! # Which assessments agree with their stored signals

The id of an assessment names the address, the checkpoint and the exposure run. A
second call under the id replaces the signals of the types that it raises and no
others, and a call that ends between its two inserts leaves the assessment of an
earlier one. The condition below is what a call must meet for neither to show. -/

namespace AmlReal.Ethereum.RiskConsistency
open AmlReal.Foundations AmlReal.Foundations.Checks AmlReal.Foundations.LatestRows
open AmlReal.Foundations.JoinedText AmlReal.Foundations.Json
open AmlReal.Ethereum.Risk AmlReal.Ethereum.Risk.EvidenceRiskEngine

/-! ## The statement -/

/-- What a stored signal says. -/
structure Content where
  signalType : String
  signalStrength : ℚ
  contribution : ℚ
  summary : String
  evidenceRefs : List String
  evidenceJson : String
  deriving DecidableEq

def rowContent (row : RiskSignalRow) : Content :=
  ⟨row.signalType, row.signalStrength, row.contribution, row.summary, row.evidenceRefs,
    row.evidenceJson⟩

def signalContent (render : Value → String) (s : RiskSignalOutput) : Content :=
  ⟨s.signalType, s.signalStrength, s.contribution, s.summary, s.evidenceRefs, render s.evidence⟩

/-- The signals stored under the id of an assessment are those it was computed
from, and it counts and adds up these. -/
structure Matches (engine : EvidenceRiskEngine) (db : Database) (a : Assessed) : Prop where
  signals : ((db.signalsOf a.row.assessmentId).map rowContent).Perm
    (a.signals.map (signalContent engine.render))
  count : (db.signalsOf a.row.assessmentId).length = a.row.signalCount
  score : Floats.clamp ((db.signalsOf a.row.assessmentId).map RiskSignalRow.contribution).sum 0 100 =
    a.row.riskScore

def Consistent (engine : EvidenceRiskEngine) (db : Database) : Prop :=
  ∀ a ∈ db.assessments, Matches engine db a

/-- What a call has to meet: where it persists everything, it raises every type that
is stored under its id; where it ends between the inserts and its id has been
assessed, it raises only signals that are stored there. -/
def Admissible (engine : EvidenceRiskEngine) (db : Database) (call : Call) : Prop :=
  engine.enabled = true → ∀ r, read call.answers = .ok r →
    let id := engine.assessmentId call.address r.asOfBlock r.exposureRun
    match call.interruption with
    | some (.beforeSignals _) => True
    | some (.betweenInserts _) => (∃ a ∈ db.assessments, a.row.assessmentId = id) →
      ∀ s ∈ raised r.rules r.evidence,
        ∃ row ∈ db.signalsOf id, rowContent row = signalContent engine.render s
    | none => ∀ row ∈ db.signalsOf id, ∃ f ∈ r.evidence.findings,
      f.signalType = row.signalType ∧ (ruleOf r.rules f.signalType).isSome

/-! ## A call raises each type once -/

def SIGNAL_TYPES : List String :=
  ["CONFIRMED_ILLICIT_SEED", "DIRECT_RECEIVED_EXPOSURE", "DIRECT_SENT_EXPOSURE",
    "INDIRECT_EXPOSURE", "MIXER_INTERACTION", "MIXER_BRIDGE_SEQUENCE",
    "RAPID_SWAP_BRIDGE_SEQUENCE", "RAPID_PASS_THROUGH"]

/-- What a detector finds is of its type. -/
def OfType (found : Option Finding) (signalType : String) : Prop :=
  ∀ f, found = some f → f.signalType = signalType

theorem ofType_map {α : Type} {signalType : String} {finding : α → Finding} (found : Option α)
    (h : ∀ x, (finding x).signalType = signalType) : OfType (found.map finding) signalType := by
  intro f hf
  obtain ⟨x, _, rfl⟩ := Option.map_eq_some_iff.mp hf
  exact h x

theorem types_sublist {found : List (Option Finding)} {types : List String}
    (h : List.Forall₂ OfType found types) :
    (found.reduceOption.map Finding.signalType).Sublist types := by
  induction h with
  | nil => exact List.Sublist.refl _
  | @cons first signalType rest types hfirst _ ih =>
    cases first with
    | none => simpa using ih.cons _
    | some f => simpa [hfirst f rfl] using ih.cons_cons signalType

theorem findings_types (e : Evidence) :
    (e.findings.map Finding.signalType).Sublist SIGNAL_TYPES := by
  apply types_sublist
  refine .cons ?_ (.cons (ofType_map _ fun _ => rfl) (.cons (ofType_map _ fun _ => rfl)
    (.cons (ofType_map _ fun _ => rfl) (.cons ?_ (.cons (ofType_map _ fun _ => rfl)
      (.cons (ofType_map _ fun _ => rfl) (.cons ?_ .nil)))))))
  · intro f hf
    unfold confirmedIllicitSeed at hf
    split at hf
    · split at hf
      · obtain rfl := Option.some.inj hf; rfl
      · cases hf
    · cases hf
  · intro f hf
    unfold mixerInteraction at hf
    simp only at hf
    split at hf
    · obtain rfl := Option.some.inj hf; rfl
    · cases hf
  · intro f hf
    unfold rapidPassThrough at hf
    split at hf
    · obtain rfl := Option.some.inj hf; rfl
    · cases hf

theorem pushed_types (rules : List RuleRow) (found : List Finding) :
    ((found.filterMap (pushSignal rules)).map RiskSignalOutput.signalType).Sublist
      (found.map Finding.signalType) := by
  induction found with
  | nil => exact List.Sublist.refl _
  | cons f rest ih =>
    cases hf : pushSignal rules f with
    | none => rw [List.filterMap_cons_none hf]; exact ih.cons _
    | some s =>
      obtain ⟨rule, _, hs⟩ := Option.map_eq_some_iff.mp hf
      rw [List.filterMap_cons_some hf, List.map_cons, List.map_cons, ← hs]
      exact ih.cons_cons _

/-- The types that a call raises are among the eight it looks for, each once. -/
theorem raised_types (rules : List RuleRow) (e : Evidence) :
    ((raised rules e).map RiskSignalOutput.signalType).Sublist SIGNAL_TYPES :=
  (pushed_types rules _).trans (findings_types e)

theorem mem_raised_type {rules : List RuleRow} {e : Evidence} {signalType : String} :
    (∃ s ∈ raised rules e, s.signalType = signalType) ↔
      ∃ f ∈ e.findings, f.signalType = signalType ∧ (ruleOf rules f.signalType).isSome := by
  constructor
  · rintro ⟨s, hs, rfl⟩
    obtain ⟨f, hf, hpush⟩ := List.mem_filterMap.mp hs
    obtain ⟨rule, hrule, rfl⟩ := Option.map_eq_some_iff.mp hpush
    exact ⟨f, hf, rfl, by simp [hrule]⟩
  · rintro ⟨f, hf, rfl, hrule⟩
    obtain ⟨rule, hrule⟩ := Option.isSome_iff_exists.mp hrule
    exact ⟨f.signal rule, List.mem_filterMap.mpr ⟨f, hf, by simp [pushSignal, hrule]⟩, rfl⟩

theorem sort_perm (signals : List RiskSignalOutput) : (sortSignals signals).Perm signals :=
  List.perm_insertionSort _ _

theorem sorted_types_nodup (rules : List RuleRow) (e : Evidence) :
    ((sortSignals (raised rules e)).map RiskSignalOutput.signalType).Nodup := by
  rw [((sort_perm _).map _).nodup_iff]
  exact (raised_types rules e).nodup (by decide)

theorem raised_length (rules : List RuleRow) (e : Evidence) : (raised rules e).length ≤ 8 := by
  have h := (raised_types rules e).length_le
  rw [List.length_map] at h
  exact h

/-! ## Ids -/

variable {engine : EvidenceRiskEngine} {db : Database}

theorem signalId_inj (hsha : Function.Injective engine.sha256) {id a b : String}
    (h : engine.signalId id a = engine.signalId id b) : a = b := by
  have htext := congrArg String.toList (hsha h)
  simp only [List.foldl_cons, List.foldl_nil, String.toList_append] at htext
  exact String.toList_inj.mp (List.append_cancel_left htext)

theorem no_bar (address : AddressId) : '|' ∉ address.address.toList := by
  obtain ⟨digits, htext, _, hhex⟩ := address.evm
  rw [htext]
  simp only [List.mem_cons, not_or]
  refine ⟨by decide, by decide, fun hbar => ?_⟩
  exact absurd (List.all_eq_true.mp hhex _ hbar) (by decide)

/-- The id of an assessment names its address. -/
theorem assessmentId_address (hsha : Function.Injective engine.sha256) {a b : AddressId}
    {block block' : Nat} {run run' : Option String}
    (h : engine.assessmentId a block run = engine.assessmentId b block' run') :
    a.address = b.address := by
  have htext := congrArg String.toList (hsha h)
  simp only [List.foldl_cons, List.foldl_nil, String.toList_append, List.append_assoc] at htext
  have hrest := List.append_cancel_left (List.append_cancel_left
    (List.append_cancel_left (List.append_cancel_left htext)))
  have hbar : "|".toList = ['|'] := by decide
  simp only [hbar, List.singleton_append] at hrest
  exact String.toList_inj.mp (before_separator (no_bar a) (no_bar b) hrest)

/-! ## What the tables hold -/

/-- Every row was inserted by a call of the engine. -/
structure Stored (engine : EvidenceRiskEngine) (db : Database) : Prop where
  signals : ∀ row ∈ db.walletRiskSignals, ∃ (address : AddressId) (r : Reading),
    row ∈ engine.signalRows address r
  assessments : ∀ a ∈ db.walletRiskAssessments, ∃ (address : AddressId) (r : Reading),
    a = engine.assessed address r

theorem Stored.empty : Stored engine ⟨[], []⟩ :=
  ⟨fun _ h => (by cases h), fun _ h => (by cases h)⟩

/-- The columns that make up the key of a signal. -/
theorem mem_signalRows {address : AddressId} {r : Reading} {row : RiskSignalRow}
    (h : row ∈ engine.signalRows address r) :
    row.assessmentId = engine.assessmentId address r.asOfBlock r.exposureRun ∧
      signalKey row = (engine.networkId, address.address, row.assessmentId,
        engine.signalId row.assessmentId row.signalType) := by
  obtain ⟨s, _, rfl⟩ := List.mem_map.mp h
  exact ⟨rfl, rfl⟩

theorem mem_signalsOf {id : String} {row : RiskSignalRow} :
    row ∈ db.signalsOf id ↔ row ∈ db.signals ∧ row.assessmentId = id := by
  simp [Database.signalsOf]

/-- Under the id of an address the type determines the key. -/
theorem Stored.signal_key (h : Stored engine db) (hsha : Function.Injective engine.sha256)
    {row : RiskSignalRow} {address : AddressId} {block : Nat} {run : Option String}
    (hrow : row ∈ db.signalsOf (engine.assessmentId address block run)) :
    signalKey row = (engine.networkId, address.address, engine.assessmentId address block run,
      engine.signalId (engine.assessmentId address block run) row.signalType) := by
  obtain ⟨hmem, hid⟩ := mem_signalsOf.mp hrow
  obtain ⟨other, r, hof⟩ := h.signals row (mem_of_mem_latest hmem)
  obtain ⟨hother, hkey⟩ := mem_signalRows hof
  rw [hkey, hid, assessmentId_address hsha (hother.symm.trans hid)]


/-- Under the id of an address a type is stored once. -/
theorem Stored.type_inj (h : Stored engine db) (hsha : Function.Injective engine.sha256)
    {a b : RiskSignalRow} {address : AddressId} {block : Nat} {run : Option String}
    (ha : a ∈ db.signalsOf (engine.assessmentId address block run))
    (hb : b ∈ db.signalsOf (engine.assessmentId address block run))
    (htype : a.signalType = b.signalType) : a = b := by
  refine latest_unique (mem_signalsOf.mp ha).1 (mem_signalsOf.mp hb).1 ?_
  rw [h.signal_key hsha ha, h.signal_key hsha hb, htype]

theorem Stored.contents_nodup (h : Stored engine db) (hsha : Function.Injective engine.sha256)
    (address : AddressId) (block : Nat) (run : Option String) :
    ((db.signalsOf (engine.assessmentId address block run)).map rowContent).Nodup := by
  refine List.Nodup.map_on (fun a ha b hb he => ?_) ((latest_nodup _).filter _)
  exact h.type_inj hsha ha hb (congrArg Content.signalType he)

theorem signalCount_raised (rules : List RuleRow) (e : Evidence) :
    signalCount (sortSignals (raised rules e)) = (sortSignals (raised rules e)).length := by
  have h := raised_length rules e
  unfold signalCount
  rw [(sort_perm _).length_eq]
  omega

/-- An assessment agrees with what is stored under its id exactly where both have
the same contents. -/
theorem matches_iff (h : Stored engine db) (hsha : Function.Injective engine.sha256)
    (address : AddressId) (r : Reading) :
    Matches engine db (engine.assessed address r) ↔
      ∀ c, (∃ row ∈ db.signalsOf (engine.assessmentId address r.asOfBlock r.exposureRun),
          rowContent row = c) ↔
        ∃ s ∈ raised r.rules r.evidence, signalContent engine.render s = c := by
  have hmem : ∀ c, c ∈ (engine.assessed address r).signals.map (signalContent engine.render) ↔
      ∃ s ∈ raised r.rules r.evidence, signalContent engine.render s = c := by
    intro c
    show c ∈ (sortSignals (raised r.rules r.evidence)).map (signalContent engine.render) ↔ _
    rw [((sort_perm _).map _).mem_iff, List.mem_map]
  constructor
  · intro hmatch c
    rw [← hmem, ← hmatch.signals.mem_iff, List.mem_map]
    rfl
  · intro hsame
    have hnodup : ((engine.assessed address r).signals.map
        (signalContent engine.render)).Nodup := by
      have htypes := sorted_types_nodup r.rules r.evidence
      refine List.Nodup.of_map Content.signalType ?_
      rw [List.map_map]
      exact htypes
    have hperm : ((db.signalsOf (engine.assessed address r).row.assessmentId).map rowContent).Perm
        ((engine.assessed address r).signals.map (signalContent engine.render)) := by
      refine (List.perm_ext_iff_of_nodup (h.contents_nodup hsha address _ _) hnodup).mpr fun c => ?_
      rw [hmem, ← hsame, List.mem_map]
    refine ⟨hperm, ?_, ?_⟩
    · have hlength := hperm.length_eq
      rw [List.length_map, List.length_map] at hlength
      rw [hlength]
      exact (signalCount_raised r.rules r.evidence).symm
    · -- the contributions are a column of the contents
      have hsum := (hperm.map Content.contribution).sum_eq
      rw [List.map_map, List.map_map] at hsum
      exact congrArg (Floats.clamp · 0 100) hsum

/-! ## One call -/

/-- The three ways in which a call may change the tables. -/
theorem step_cases (engine : EvidenceRiskEngine) (db : Database) (call : Call) :
    (engine.step db call = db ∧ Admissible engine db call) ∨
    ∃ r, engine.enabled = true ∧ read call.answers = .ok r ∧
      ((∃ error, call.interruption = some (.betweenInserts error) ∧ engine.step db call =
          { db with walletRiskSignals :=
              db.walletRiskSignals ++ engine.signalRows call.address r }) ∨
        (call.interruption = none ∧ engine.step db call =
          { walletRiskSignals := db.walletRiskSignals ++ engine.signalRows call.address r
            walletRiskAssessments :=
              db.walletRiskAssessments ++ [engine.assessed call.address r] })) := by
  unfold EvidenceRiskEngine.step assess Admissible
  cases henabled : engine.enabled with
  | false => exact Or.inl ⟨rfl, fun h => by cases h⟩
  | true =>
    cases hread : read call.answers with
    | error error => exact Or.inl ⟨rfl, fun _ r hr => by cases hr⟩
    | ok r =>
      cases hend : call.interruption with
      | none => exact Or.inr ⟨r, rfl, rfl, Or.inr ⟨rfl, rfl⟩⟩
      | some interruption =>
        cases interruption with
        | beforeSignals error => exact Or.inl ⟨rfl, fun _ _ _ => trivial⟩
        | betweenInserts error => exact Or.inr ⟨r, rfl, rfl, Or.inl ⟨error, rfl, rfl⟩⟩

theorem Stored.step (h : Stored engine db) (call : Call) : Stored engine (engine.step db call) := by
  have hsignals : ∀ r, ∀ row ∈ db.walletRiskSignals ++ engine.signalRows call.address r,
      ∃ (address : AddressId) (r : Reading), row ∈ engine.signalRows address r := by
    intro r row hrow
    rcases List.mem_append.mp hrow with hrow | hrow
    · exact h.signals row hrow
    · exact ⟨call.address, r, hrow⟩
  rcases step_cases engine db call with ⟨heq, _⟩ | ⟨r, _, _, ⟨_, _, heq⟩ | ⟨_, heq⟩⟩
  · rw [heq]; exact h
  · rw [heq]; exact ⟨hsignals r, h.assessments⟩
  · rw [heq]
    refine ⟨hsignals r, fun a ha => ?_⟩
    rcases List.mem_append.mp ha with ha | ha
    · exact h.assessments a ha
    · exact ⟨call.address, r, List.mem_singleton.mp ha⟩

section
variable {address : AddressId} {r : Reading} {assessments : List Assessed}

/-- The tables after the signals of a reading. -/
def withSignals (engine : EvidenceRiskEngine) (db : Database) (address : AddressId) (r : Reading)
    (assessments : List Assessed) : Database :=
  ⟨db.walletRiskSignals ++ engine.signalRows address r, assessments⟩

variable (assessments) in
/-- Under other ids nothing changes. -/
theorem signalsOf_other {id : String}
    (hid : id ≠ engine.assessmentId address r.asOfBlock r.exposureRun) :
    (withSignals engine db address r assessments).signalsOf id = db.signalsOf id := by
  refine latest_append_filter (fun row hrow => ?_) (fun row hrow other hother hkey => ?_)
  · rw [(mem_signalRows hrow).1]
    exact decide_eq_false fun he => hid he.symm
  · have hsame : other.assessmentId = row.assessmentId := congrArg (·.2.2.1) hkey
    rw [(mem_signalRows hrow).1, of_decide_eq_true hother] at hsame
    exact hid hsame

theorem signalRows_nodup (hsha : Function.Injective engine.sha256) (address : AddressId)
    (r : Reading) : ((engine.signalRows address r).map signalKey).Nodup := by
  have htypes := sorted_types_nodup r.rules r.evidence
  unfold signalRows
  rw [List.map_map]
  refine List.Nodup.map_on (fun a ha b hb he => ?_) (List.Nodup.of_map _ htypes)
  exact List.inj_on_of_nodup_map htypes ha hb (signalId_inj hsha (congrArg (·.2.2.2) he))

/-- Under the id of the call a row stays where the call does not raise its type. -/
theorem mem_signalsOf_call (h : Stored engine db) (hsha : Function.Injective engine.sha256)
    {row : RiskSignalRow} :
    row ∈ (withSignals engine db address r assessments).signalsOf
        (engine.assessmentId address r.asOfBlock r.exposureRun) ↔
      row ∈ engine.signalRows address r ∨
        (row ∈ db.signalsOf (engine.assessmentId address r.asOfBlock r.exposureRun) ∧
          ¬∃ s ∈ raised r.rules r.evidence, s.signalType = row.signalType) := by
  have hkeys : row ∈ db.signalsOf (engine.assessmentId address r.asOfBlock r.exposureRun) →
      (signalKey row ∈ (engine.signalRows address r).map signalKey ↔
        ∃ s ∈ raised r.rules r.evidence, s.signalType = row.signalType) := by
    intro hrow
    rw [h.signal_key hsha hrow, signalRows, List.map_map, List.mem_map]
    constructor
    · rintro ⟨s, hs, he⟩
      exact ⟨s, (sort_perm _).mem_iff.mp hs, signalId_inj hsha (congrArg (·.2.2.2) he)⟩
    · rintro ⟨s, hs, htype⟩
      exact ⟨s, (sort_perm _).mem_iff.mpr hs, by rw [← htype]; rfl⟩
  rw [mem_signalsOf, mem_signalsOf]
  show row ∈ newest signalKey (db.walletRiskSignals ++ engine.signalRows address r) ∧ _ ↔ _
  rw [mem_newest_append (signalRows_nodup hsha address r)]
  constructor
  · rintro ⟨hnew | ⟨hold, hkey⟩, hid⟩
    · exact Or.inl hnew
    · exact Or.inr ⟨⟨hold, hid⟩, fun hraised => hkey ((hkeys (mem_signalsOf.mpr ⟨hold, hid⟩)).mpr
        hraised)⟩
  · rintro (hnew | ⟨⟨hold, hid⟩, hnone⟩)
    · exact ⟨Or.inl hnew, (mem_signalRows hnew).1⟩
    · exact ⟨Or.inr ⟨hold, fun hkey => hnone ((hkeys (mem_signalsOf.mpr ⟨hold, hid⟩)).mp hkey)⟩,
        hid⟩

/-- The contents of the new rows. -/
theorem signalRows_contents {c : Content} :
    (∃ row ∈ engine.signalRows address r, rowContent row = c) ↔
      ∃ s ∈ raised r.rules r.evidence, signalContent engine.render s = c := by
  constructor
  · rintro ⟨row, hrow, rfl⟩
    obtain ⟨s, hs, rfl⟩ := List.mem_map.mp hrow
    exact ⟨s, (sort_perm _).mem_iff.mp hs, rfl⟩
  · rintro ⟨s, hs, rfl⟩
    exact ⟨_, List.mem_map_of_mem ((sort_perm _).mem_iff.mpr hs), rfl⟩

end

/-- The signals alone keep the tables consistent where every assessment under their
id finds them stored. -/
theorem withSignals_consistent (h : Stored engine db) (hsha : Function.Injective engine.sha256)
    (hcon : Consistent engine db) (address : AddressId) (r : Reading) :
    Consistent engine (withSignals engine db address r db.walletRiskAssessments) ↔
      ((∃ a ∈ db.assessments,
          a.row.assessmentId = engine.assessmentId address r.asOfBlock r.exposureRun) →
        ∀ s ∈ raised r.rules r.evidence,
          ∃ row ∈ db.signalsOf (engine.assessmentId address r.asOfBlock r.exposureRun),
            rowContent row = signalContent engine.render s) := by
  constructor
  · rintro hafter ⟨a, ha, hid⟩ s hs
    have hcontent := (hafter a ha).signals.trans (hcon a ha).signals.symm
    rw [hid] at hcontent
    obtain ⟨row, hrow, hrow'⟩ := signalRows_contents.mpr ⟨s, hs, rfl⟩
    rw [← hrow']
    exact List.mem_map.mp (hcontent.mem_iff.mp (List.mem_map_of_mem
      ((mem_signalsOf_call h hsha).mpr (Or.inl hrow))))
  · intro hstored a ha
    have ha : a ∈ db.assessments := ha
    obtain ⟨other, q, rfl⟩ := h.assessments a (mem_of_mem_latest ha)
    have hmatch := hcon _ ha
    by_cases hid : (engine.assessed other q).row.assessmentId =
        engine.assessmentId address r.asOfBlock r.exposureRun
    · -- the id of the call has been assessed
      have hstored := hstored ⟨_, ha, hid⟩
      have hafter : Stored engine (withSignals engine db address r db.walletRiskAssessments) := by
        refine ⟨fun row hrow => ?_, h.assessments⟩
        rcases List.mem_append.mp hrow with hrow | hrow
        · exact h.signals row hrow
        · exact ⟨address, r, hrow⟩
      rw [matches_iff hafter hsha]
      intro c
      rw [← (matches_iff h hsha other q).mp hmatch c]
      have hid : engine.assessmentId other q.asOfBlock q.exposureRun =
        engine.assessmentId address r.asOfBlock r.exposureRun := hid
      rw [hid]
      constructor
      · rintro ⟨row, hrow, rfl⟩
        rcases (mem_signalsOf_call h hsha).mp hrow with hnew | ⟨hold, _⟩
        · obtain ⟨s, hs, hcontent⟩ := signalRows_contents.mp ⟨row, hnew, rfl⟩
          rw [← hcontent]
          exact hstored s hs
        · exact ⟨row, hold, rfl⟩
      · rintro ⟨row, hrow, rfl⟩
        by_cases hraised : ∃ s ∈ raised r.rules r.evidence, s.signalType = row.signalType
        · obtain ⟨s, hs, htype⟩ := hraised
          -- the row that takes its place says the same, as its type is stored once
          obtain ⟨same, hsame, hcontent⟩ := hstored s hs
          obtain rfl := h.type_inj hsha hsame hrow
            ((congrArg Content.signalType hcontent).trans htype)
          obtain ⟨new, hnew, hnew'⟩ := signalRows_contents.mpr ⟨s, hs, rfl⟩
          exact ⟨new, (mem_signalsOf_call h hsha).mpr (Or.inl hnew), hnew'.trans hcontent.symm⟩
        · exact ⟨row, (mem_signalsOf_call h hsha).mpr (Or.inr ⟨hrow, hraised⟩), rfl⟩
    · obtain ⟨hsignals, hcount, hscore⟩ := hmatch
      rw [← signalsOf_other db.walletRiskAssessments hid] at hsignals hcount hscore
      exact ⟨hsignals, hcount, hscore⟩

/-- A completed call keeps the tables consistent where it raises every stored type. -/
theorem complete_consistent (h : Stored engine db) (hsha : Function.Injective engine.sha256)
    (hcon : Consistent engine db) (address : AddressId) (r : Reading) :
    Consistent engine (withSignals engine db address r
        (db.walletRiskAssessments ++ [engine.assessed address r])) ↔
      ∀ row ∈ db.signalsOf (engine.assessmentId address r.asOfBlock r.exposureRun),
        ∃ s ∈ raised r.rules r.evidence, s.signalType = row.signalType := by
  have hkept : ∀ a, a ∈ (withSignals engine db address r
      (db.walletRiskAssessments ++ [engine.assessed address r])).assessments ↔
      a = engine.assessed address r ∨
        (a ∈ db.assessments ∧ assessmentKey a ≠ assessmentKey (engine.assessed address r)) :=
    fun _ => mem_newest_concat
  have hafter : Stored engine (withSignals engine db address r
      (db.walletRiskAssessments ++ [engine.assessed address r])) := by
    refine ⟨fun row hrow => ?_, fun a ha => ?_⟩
    · rcases List.mem_append.mp hrow with hrow | hrow
      · exact h.signals row hrow
      · exact ⟨address, r, hrow⟩
    · rcases List.mem_append.mp ha with ha | ha
      · exact h.assessments a ha
      · exact ⟨address, r, List.mem_singleton.mp ha⟩
  constructor
  · intro hall row hrow
    by_contra hnone
    have hmatch := (matches_iff hafter hsha address r).mp (hall _ ((hkept _).mpr (Or.inl rfl)))
    obtain ⟨s, hs, hcontent⟩ := (hmatch (rowContent row)).mp
      ⟨row, (mem_signalsOf_call h hsha).mpr (Or.inr ⟨hrow, hnone⟩), rfl⟩
    exact hnone ⟨s, hs, congrArg Content.signalType hcontent⟩
  · intro hraised a ha
    rcases (hkept a).mp ha with rfl | ⟨ha, hkey⟩
    · rw [matches_iff hafter hsha]
      intro c
      rw [← signalRows_contents]
      constructor
      · rintro ⟨row, hrow, hc⟩
        rcases (mem_signalsOf_call h hsha).mp hrow with hnew | ⟨hold, hnone⟩
        · exact ⟨row, hnew, hc⟩
        · exact absurd (hraised row hold) hnone
      · rintro ⟨row, hrow, hc⟩
        exact ⟨row, (mem_signalsOf_call h hsha).mpr (Or.inl hrow), hc⟩
    · obtain ⟨other, q, rfl⟩ := h.assessments a (mem_of_mem_latest ha)
      have hid : (engine.assessed other q).row.assessmentId ≠
          engine.assessmentId address r.asOfBlock r.exposureRun := by
        -- under one id the address is the same, and with it the whole key
        intro hid
        have haddress : other.address = address.address := assessmentId_address hsha hid
        exact hkey (congrArg₂ (fun a id => (engine.networkId, a, engine.policyVersion, id))
          haddress hid)
      obtain ⟨hsignals, hcount, hscore⟩ := hcon _ ha
      rw [← signalsOf_other (db.walletRiskAssessments ++ [engine.assessed address r]) hid] at hsignals hcount hscore
      exact ⟨hsignals, hcount, hscore⟩

theorem step_consistent (h : Stored engine db) (hsha : Function.Injective engine.sha256)
    (hcon : Consistent engine db) (call : Call) :
    Consistent engine (engine.step db call) ↔ Admissible engine db call := by
  rcases step_cases engine db call with ⟨heq, hadm⟩ | ⟨r, henabled, hread, hcase⟩
  · rw [heq]
    exact iff_of_true hcon hadm
  · unfold Admissible
    rcases hcase with ⟨error, hend, heq⟩ | ⟨hend, heq⟩
    · rw [heq, hend]
      refine (withSignals_consistent h hsha hcon call.address r).trans ⟨fun hs _ q hq => ?_,
        fun hs => hs henabled r hread⟩
      obtain rfl := Except.ok.inj (hread.symm.trans hq)
      exact hs
    · rw [heq, hend]
      refine (complete_consistent h hsha hcon call.address r).trans ⟨fun hs _ q hq => ?_,
        fun hs row hrow => mem_raised_type.mpr (hs henabled r hread row hrow)⟩
      obtain rfl := Except.ok.inj (hread.symm.trans hq)
      exact fun row hrow => mem_raised_type.mp (hs row hrow)

/-! ## Runs -/

theorem stored_run (engine : EvidenceRiskEngine) (calls : List Call) :
    Stored engine (engine.run calls) := by
  induction calls using List.reverseRecOn with
  | nil => exact Stored.empty
  | append_singleton calls call ih => rw [run_concat]; exact ih.step call

/-- The tables are consistent after every call of a run exactly where every call is
admissible when it is made. -/
theorem run_consistent_iff (engine : EvidenceRiskEngine) (hsha : Function.Injective engine.sha256)
    (calls : List Call) :
    (∀ done, done <+: calls → Consistent engine (engine.run done)) ↔
      ∀ done call, done ++ [call] <+: calls → Admissible engine (engine.run done) call := by
  constructor
  · intro hall done call hdone
    have hafter := hall _ hdone
    rw [run_concat] at hafter
    exact (step_consistent (stored_run engine done) hsha
      (hall done ((List.prefix_append done [call]).trans hdone)) call).mp hafter
  · intro hadm done
    induction done using List.reverseRecOn with
    | nil => exact fun _ a ha => by cases ha
    | append_singleton done call ih =>
      intro hdone
      rw [run_concat]
      exact (step_consistent (stored_run engine done) hsha
        (ih ((List.prefix_append done [call]).trans hdone)) call).mpr (hadm done call hdone)

/-! ## A label that is retracted between two calls -/

def sampleEngine : EvidenceRiskEngine where
  networkId := "eip155:1"
  policyVersion := "v1"
  enabled := true
  sha256 := id
  render _ := ""

def sampleAddress : AddressId :=
  ⟨"0x00000000000000000000000000000000000000aa", _, rfl, by decide, by decide⟩

def sampleAnswers (entity : Option EntityEvidenceRow) (now : Nat) : Answers where
  policy := some ⟨40, 70⟩
  rules := some [⟨"CONFIRMED_ILLICIT_SEED", 100, "Address is an approved exposure seed"⟩]
  checkpoint := .ok (some 1)
  exposureRun := .ok none
  unixTimeMillis := .ok now
  entity := some entity
  exposure := none
  semantic := some []
  passThrough := some ⟨0, []⟩

def sampleCalls : List Call :=
  [⟨sampleAddress, sampleAnswers (some ⟨90, 1, ["mixer"], ["label"]⟩) 1000, none⟩,
    ⟨sampleAddress, sampleAnswers none 2000, none⟩]

theorem sample_run_consistent_iff :
    (∀ done, done <+: sampleCalls → Consistent sampleEngine (sampleEngine.run done)) ↔
      ∀ done call, done ++ [call] <+: sampleCalls →
        Admissible sampleEngine (sampleEngine.run done) call :=
  run_consistent_iff sampleEngine Function.injective_id sampleCalls

/-- The second assessment counts no signal, and the one of the first is still stored. -/
theorem retracted_signal_stays : ¬∀ (engine : EvidenceRiskEngine) (calls : List Call),
    Function.Injective engine.sha256 → Consistent engine (engine.run calls) := by
  intro h
  have hcon := h sampleEngine sampleCalls Function.injective_id
  have hcounts : ∃ a ∈ (sampleEngine.run sampleCalls).assessments, a.row.signalCount = 0 ∧
      ((sampleEngine.run sampleCalls).signalsOf a.row.assessmentId).length = 1 := by
    decide +kernel
  obtain ⟨a, ha, hcount, hstored⟩ := hcounts
  have hmatch := (hcon a ha).count
  rw [hcount, hstored] at hmatch
  cases hmatch

end AmlReal.Ethereum.RiskConsistency
