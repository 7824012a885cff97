import Mathlib.Data.List.Forall2
import AmlReal.Foundations.Decimals
import AmlReal.Foundations.EntryList
import AmlReal.Foundations.Json

/-! # Bitcoin RPC responses

`decode` of `bitcoin/rpc.rs`: the envelopes of a response, matched to the
requests by their ids. -/

namespace AmlReal.Bitcoin.Rpc
open AmlReal.Foundations AmlReal.Foundations.Checks AmlReal.Foundations.EntryList AmlReal.Foundations.Json

structure Failure where
  reason : String
  retryable : Bool
  deriving DecidableEq

/-- `Value::as_i64`; a negative integer literal is kept as its text. -/
def asI64 : Value → Option Int
  | .number (.natural n) => if n < 2 ^ 63 then some n else none
  | .number (.other text _) =>
    match text.toList with
    | '-' :: digits =>
      if Decimals.Digits digits ∧ 0 < Decimals.number digits ∧ Decimals.number digits ≤ 2 ^ 63 then
        some (-Decimals.number digits)
      else none
    | _ => none
  | _ => none

/-- The body of the loop over the envelopes. -/
def insertEnvelope (ids : List Nat) (values : List (Nat × Value)) (row : Value) :
    Except Failure (List (Nat × Value)) := do
  let id ← context (row["id"].asU64.filter fun id => id ∈ ids) ⟨"response identity mismatch", false⟩
  ensure (values.lookup id).isNone ⟨"duplicate response identity", false⟩
  ensure (row["error"] = .null) ⟨"method failed", asI64 row["error"]["code"] = some (-28)⟩
  let result ← context (row.get "result") ⟨"missing result", false⟩
  pure ((id, result) :: values)

/-- The results in the order of the requests, each taken out of the map. -/
def takeResults : List (Nat × Value) → List Nat → Except Failure (List Value)
  | _, [] => .ok []
  | values, id :: ids => do
    let result ← context (values.lookup id) ⟨"missing response identity", false⟩
    let rest ← takeResults (remove values id) ids
    pure (result :: rest)

def decode (value : Value) (ids : List Nat) (batch : Bool) : Except Failure (List Value) := do
  let envelopes ← if batch then context value.asArray ⟨"invalid batch envelope", false⟩ else .ok [value]
  ensure (envelopes.length = ids.length) ⟨"missing/extra batch responses", false⟩
  let values ← envelopes.foldlM (insertEnvelope ids) []
  takeResults values ids

/-- An error-free envelope with the result for a request. -/
structure Answers (id : Nat) (row result : Value) : Prop where
  id : row["id"].asU64 = some id
  error : row["error"] = .null
  result : row.get "result" = some result

/-! ## The loop -/

theorem insertEnvelope_ok {ids : List Nat} {values values' : List (Nat × Value)} {row : Value} :
    insertEnvelope ids values row = .ok values' ↔ ∃ id result, Answers id row result ∧ id ∈ ids ∧
      (values.lookup id).isNone ∧ values' = (id, result) :: values := by
  constructor
  · intro h
    obtain ⟨id, hid, h⟩ := bind_ok h
    obtain ⟨_, hfresh, h⟩ := bind_ok h
    obtain ⟨_, herror, h⟩ := bind_ok h
    obtain ⟨result, hresult, h⟩ := bind_ok h
    obtain ⟨hid, hmem⟩ := Option.filter_eq_some_iff.mp (context_ok hid)
    exact ⟨id, result, ⟨hid, ensure_ok herror, context_ok hresult⟩, of_decide_eq_true hmem,
      ensure_ok hfresh, (Except.ok.inj h).symm⟩
  · rintro ⟨id, result, hanswers, hmem, hfresh, rfl⟩
    have hfilter : row["id"].asU64.filter (fun id => decide (id ∈ ids)) = some id :=
      Option.filter_eq_some_iff.mpr ⟨hanswers.id, decide_eq_true hmem⟩
    unfold insertEnvelope
    rw [hfilter, context_some, ok_bind, ensure_eq hfresh, ok_bind, ensure_eq hanswers.error, ok_bind,
      hanswers.result]
    rfl

/-- The loop ends when every envelope answers a request of its own. -/
theorem envelopes_ok {ids : List Nat} {rows : List Value} {values values' : List (Nat × Value)} :
    Keyed values → (rows.foldlM (insertEnvelope ids) values = .ok values' ↔
      ∃ pairs, List.Forall₂ (fun row p => Answers p.1 row p.2) rows pairs ∧ (∀ p ∈ pairs, p.1 ∈ ids) ∧
        Keyed (pairs.reverse ++ values) ∧ values' = pairs.reverse ++ values) := by
  induction rows generalizing values with
  | nil =>
    intro hkeyed
    constructor
    · intro h
      exact ⟨[], .nil, by simp, hkeyed, (Except.ok.inj h).symm⟩
    · rintro ⟨pairs, hpairs, _, _, rfl⟩
      cases hpairs
      rfl
  | cons row rows ih =>
    intro hkeyed
    rw [List.foldlM_cons]
    constructor
    · intro h
      obtain ⟨mid, hrow, hrows⟩ := bind_ok h
      obtain ⟨id, result, hanswers, hmem, hfresh, rfl⟩ := insertEnvelope_ok.mp hrow
      obtain ⟨pairs, hpairs, hids, hkeys, rfl⟩ := (ih (hkeyed.cons hfresh)).mp hrows
      refine ⟨(id, result) :: pairs, .cons hanswers hpairs, List.forall_mem_cons.mpr ⟨hmem, hids⟩, ?_, ?_⟩
      · simpa using hkeys
      · simp
    · rintro ⟨pairs, hpairs, hids, hkeys, rfl⟩
      cases hpairs with
      | @cons _ p _ rest hanswers hrest =>
        obtain ⟨hmem, hids⟩ := List.forall_mem_cons.mp hids
        have hreverse : (p :: rest).reverse ++ values = rest.reverse ++ p :: values := by simp
        rw [hreverse] at hkeys
        have hinner : Keyed (p :: values) := hkeys.sublist ((List.sublist_append_right _ _).map Prod.fst)
        have hfresh : (values.lookup p.1).isNone := lookup_isNone.mpr fun v hv =>
          (List.nodup_cons.mp hinner).1 (List.mem_map.mpr ⟨(p.1, v), hv, rfl⟩)
        rw [insertEnvelope_ok.mpr ⟨p.1, p.2, hanswers, hmem, hfresh, rfl⟩, ok_bind]
        exact (ih hinner).mpr ⟨rest, hrest, hids, hkeys, hreverse⟩

/-- As many values as requests are taken out only if each request has its own. -/
theorem takeResults_ok {values : List (Nat × Value)} {ids : List Nat} {results : List Value} :
    Keyed values → values.length = ids.length → (takeResults values ids = .ok results ↔
      results.length = ids.length ∧ values.Perm (ids.zip results)) := by
  induction ids generalizing values results with
  | nil =>
    intro _ hlength
    obtain rfl := List.length_eq_zero_iff.mp hlength
    constructor
    · intro h
      obtain rfl := Except.ok.inj h
      exact ⟨rfl, .refl _⟩
    · rintro ⟨hlength, _⟩
      obtain rfl := List.length_eq_zero_iff.mp hlength
      rfl
  | cons id ids ih =>
    intro hkeyed hlength
    constructor
    · intro h
      obtain ⟨result, hresult, h⟩ := bind_ok h
      obtain ⟨rest, hrest, h⟩ := bind_ok h
      obtain rfl := Except.ok.inj h
      have hremove := perm_remove hkeyed (context_ok hresult)
      have hcount : (remove values id).length = ids.length := by
        have hlen := hremove.length_eq
        rw [hlength, List.length_cons, List.length_cons] at hlen
        omega
      obtain ⟨hlen, hperm⟩ := (ih (hkeyed.remove id) hcount).mp hrest
      exact ⟨by rw [List.length_cons, List.length_cons, hlen], hremove.trans (hperm.cons _)⟩
    · rintro ⟨hlen, hperm⟩
      cases results with
      | nil => cases hlen
      | cons result rest =>
        have hlookup : values.lookup id = some result :=
          hkeyed.lookup_eq_some.mpr (hperm.mem_iff.mpr List.mem_cons_self)
        have hremove : (remove values id).Perm (ids.zip rest) :=
          ((perm_remove hkeyed hlookup).symm.trans hperm).cons_inv
        have hrest : rest.length = ids.length := by simpa using hlen
        have hcount : (remove values id).length = ids.length := by
          rw [hremove.length_eq, List.length_zip, hrest, Nat.min_self]
        unfold takeResults
        rw [hlookup, context_some, ok_bind, (ih (hkeyed.remove id) hcount).mpr ⟨hrest, hremove⟩]
        rfl

/-! ## Responses -/

/-- The envelopes are those of the requests with these results, in any order. -/
def Matches (ids : List Nat) (rows results : List Value) : Prop :=
  results.length = ids.length ∧ ∃ arranged, rows.Perm arranged ∧
    List.Forall₂ (fun row p => Answers p.1 row p.2) arranged (ids.zip results)

theorem decode_ok {ids : List Nat} (hids : ids.Nodup) {rows results : List Value} :
    decode (.array rows) ids true = .ok results ↔ Matches ids rows results := by
  constructor
  · intro h
    obtain ⟨envelopes, henvelopes, h⟩ := bind_ok h
    obtain ⟨_, hcount, h⟩ := bind_ok h
    obtain ⟨values, hvalues, h⟩ := bind_ok h
    obtain rfl : rows = envelopes := Option.some.inj (context_ok henvelopes)
    obtain ⟨pairs, hpairs, _, hkeyed, rfl⟩ := (envelopes_ok Keyed.nil).mp hvalues
    rw [List.append_nil] at hkeyed h
    have hlength : pairs.reverse.length = ids.length := by
      rw [List.length_reverse, ← hpairs.length_eq, ensure_ok hcount]
    obtain ⟨hresults, hperm⟩ := (takeResults_ok hkeyed hlength).mp h
    have harranged : Relation.Comp (List.Forall₂ fun row (p : Nat × Value) => Answers p.1 row p.2) List.Perm
        rows (ids.zip results) := ⟨pairs, hpairs, (List.reverse_perm pairs).symm.trans hperm⟩
    rw [List.forall₂_comp_perm_eq_perm_comp_forall₂] at harranged
    exact ⟨hresults, harranged⟩
  · rintro ⟨hresults, harranged⟩
    have hpairs : Relation.Comp List.Perm (List.Forall₂ fun row (p : Nat × Value) => Answers p.1 row p.2)
        rows (ids.zip results) := harranged
    rw [← List.forall₂_comp_perm_eq_perm_comp_forall₂] at hpairs
    obtain ⟨pairs, hpairs, hperm⟩ := hpairs
    have hkeys : (ids.zip results).map Prod.fst = ids := List.map_fst_zip hresults.ge
    have hzip : Keyed (ids.zip results) := by rwa [Keyed, hkeys]
    have hreverse : pairs.reverse.Perm (ids.zip results) := (List.reverse_perm pairs).trans hperm
    have hkeyed : Keyed pairs.reverse := hzip.perm hreverse.symm
    have hlength : pairs.length = ids.length := by
      rw [hperm.length_eq, List.length_zip, hresults, Nat.min_self]
    have hmem : ∀ p ∈ pairs, p.1 ∈ ids := fun p hp => by
      rw [← hkeys]
      exact List.mem_map_of_mem (hperm.mem_iff.mp hp)
    have hvalues : rows.foldlM (insertEnvelope ids) [] = .ok pairs.reverse :=
      (envelopes_ok Keyed.nil).mpr ⟨pairs, hpairs, hmem, by rwa [List.append_nil], (List.append_nil _).symm⟩
    show (ensure (rows.length = ids.length) _ >>= fun _ => _) = _
    rw [ensure_eq (hpairs.length_eq.trans hlength), ok_bind]
    show (rows.foldlM (insertEnvelope ids) [] >>= fun values => takeResults values ids) = _
    rw [hvalues, ok_bind]
    exact (takeResults_ok hkeyed (by rwa [List.length_reverse])).mpr ⟨hresults, hreverse⟩

/-- The envelopes of an accepted response carry each id once. -/
theorem Matches.ids {ids : List Nat} {rows results : List Value} (h : Matches ids rows results) :
    (rows.map fun row => row["id"].asU64).Perm (ids.map some) := by
  obtain ⟨hresults, arranged, hperm, hanswers⟩ := h
  have hids : arranged.map (fun row => row["id"].asU64) = (ids.zip results).map fun p => some p.1 := by
    refine List.forall₂_eq_eq_eq ▸ ?_
    exact List.forall₂_map_left_iff.mpr (List.forall₂_map_right_iff.mpr (hanswers.imp fun _ _ h => h.id))
  have hkeys : (ids.zip results).map (fun p => some p.1) = ids.map some := by
    show (ids.zip results).map (some ∘ Prod.fst) = _
    rw [← List.map_map, List.map_fst_zip hresults.ge]
  rw [← hkeys, ← hids]
  exact hperm.map _

/-- A batch response to distinct requests is accepted exactly when it answers every request once,
in any order, with the results in the order of the requests; any other ids are an error. -/
theorem decode_matches_requests {ids : List Nat} (hids : ids.Nodup) (rows : List Value) :
    (∀ results, decode (.array rows) ids true = .ok results ↔ Matches ids rows results) ∧
    (∀ rows', rows.Perm rows' → ∀ results, decode (.array rows) ids true = .ok results →
      decode (.array rows') ids true = .ok results) ∧
    (¬ (rows.map fun row => row["id"].asU64).Perm (ids.map some) →
      ∃ failure, decode (.array rows) ids true = .error failure) := by
  refine ⟨fun results => decode_ok hids, fun rows' hperm results h => ?_, fun hids' => ?_⟩
  · obtain ⟨hresults, arranged, harranged, hanswers⟩ := (decode_ok hids).mp h
    exact (decode_ok hids).mpr ⟨hresults, arranged, hperm.symm.trans harranged, hanswers⟩
  · cases hdecode : decode (.array rows) ids true with
    | error failure => exact ⟨failure, rfl⟩
    | ok results => exact absurd ((decode_ok hids).mp hdecode).ids hids'

/-- An envelope of the node. -/
def envelope (id : Nat) (result : Value) : Value :=
  .object [("result", result), ("error", .null), ("id", .ofNat id)]

theorem decode_matches_requests_swapped : decode (.array [envelope 8 (.bool false), envelope 7 (.bool true)])
    [7, 8] true = .ok [.bool true, .bool false] :=
  (decode_matches_requests (show [7, 8].Nodup by decide) [envelope 7 (.bool true), envelope 8 (.bool false)]).2.1
    _ (List.Perm.swap _ _ _) _ (by decide +kernel)

end AmlReal.Bitcoin.Rpc
