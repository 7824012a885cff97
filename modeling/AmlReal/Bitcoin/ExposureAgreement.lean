import Mathlib.Data.Fintype.Card
import Mathlib.Tactic.Linarith
import Mathlib.Tactic.Positivity
import AmlReal.Bitcoin.RouteBounds
import AmlReal.Bitcoin.Scan
import AmlReal.RiskPolicy.BitcoinExposure

/-! # The verifier accepts what the producer makes

Two independent programs agree on a path: the walk of `make_path` over a route
of a scan is the loop of `bitcoin_exposure` over its JSON, hop by hop, and the
fields around it pass the verifier's checks. -/

namespace AmlReal.Bitcoin.ExposureAgreement
open AmlReal.Foundations.Checks AmlReal.Foundations.Floats AmlReal.Foundations.Json
open AmlReal.Warehouse.Values AmlReal.Bitcoin.Bounds AmlReal.Bitcoin.Trace AmlReal.Bitcoin.Scan
open AmlReal.Bitcoin.Transactions (Tx Leg positions)
open AmlReal.Bitcoin.RouteBounds (supply_lt)
open AmlReal.RiskPolicy.Evidence AmlReal.RiskPolicy.BitcoinExposure
open AmlReal.Bitcoin.Intelligence (ClaimRow shown)

/-! ## A canonical hop -/

section
variable {parse : String → Except String String} {hop prior : Hop}

theorem output_le_sum (hop : Hop) : hop.output.value ≤ (hop.tx.outputs.map Leg.value).sum := by
  refine List.single_le_sum (fun _ _ => Nat.zero_le _) _ (List.mem_map_of_mem ?_)
  exact List.getElem_mem _

/-- The followed output carries its own position as its index. -/
theorem output_index (h : Canonical parse hop.tx) :
    hop.output.index = hop.out.val ∧ hop.out.val < 2 ^ 32 := by
  have hpositions := h.isLoaded.positions.2
  have hindex : (positions hop.tx.outputs)[hop.out.val]? = some hop.output.index := by
    simp [positions, Hop.output]
  rw [hpositions, List.getElem?_range hop.out.isLt] at hindex
  have hlength := h.lengths.2
  have hlt := hop.out.isLt
  refine ⟨(Option.some.inj hindex).symm, ?_⟩
  unfold maxEdges at hlength
  omega

theorem spends_of_mem (h : Canonical parse hop.tx) {leg : Leg} (hleg : leg ∈ hop.inputs) :
    ∃ hash n, leg.prevTxHash = some hash ∧ leg.prevOutputIndex = some n ∧ n < 2 ^ 64 := by
  obtain ⟨i, _, rfl⟩ := List.mem_map.mp hleg
  obtain ⟨hhash, n, hn, hlt⟩ := h.isLoaded.spends (hop.input i) (List.getElem_mem _)
  obtain ⟨hash, hhash⟩ := Option.isSome_iff_exists.mp hhash
  exact ⟨hash, n, hhash, hn, by omega⟩

/-- The outpoint that an input spends, as the verifier reads it. -/
def spentOutpoint (leg : Leg) : String × Nat :=
  (leg.prevTxHash.getD "", leg.prevOutputIndex.getD 0)

theorem outpoints_nodup (h : Canonical parse hop.tx) (hdistinct : hop.ins.Nodup) :
    (hop.inputs.map spentOutpoint).Nodup := by
  unfold Hop.inputs
  rw [List.map_map]
  refine hdistinct.map_on fun i hi j hj heq => ?_
  have hall := h.isLoaded.outpoints
  obtain ⟨ihash, iindex, hi1, hi2, _⟩ := spends_of_mem h (List.mem_map_of_mem hi)
  obtain ⟨jhash, jindex, hj1, hj2, _⟩ := spends_of_mem h (List.mem_map_of_mem hj)
  have hsame : (ihash, iindex) = (jhash, jindex) := by
    simpa [spentOutpoint, hi1, hi2, hj1, hj2] using heq
  obtain ⟨rfl, rfl⟩ := Prod.mk.inj hsame
  have hlength : (hop.tx.inputs.map fun l => (l.prevTxHash, l.prevOutputIndex)).length =
      hop.tx.inputs.length := List.length_map _
  have hpairs : (hop.tx.inputs.map fun l => (l.prevTxHash, l.prevOutputIndex))[i.val] =
      (hop.tx.inputs.map fun l => (l.prevTxHash, l.prevOutputIndex))[j.val] := by
    rw [List.getElem_map, List.getElem_map]
    exact Prod.ext (hi1.trans hj1.symm) (hi2.trans hj2.symm)
  exact Fin.ext ((List.Nodup.getElem_inj_iff hall).mp hpairs)

end

/-! ## Spellings -/

theorem exact_decimal {n : Nat} (h : n ≤ supply) : exact (decimal n) = some n := by
  have hlt : n < 2 ^ 64 := h.trans_lt (by decide)
  unfold exact decimal
  simp only [Value.asStr_string, Option.bind_eq_bind, Option.bind_some, parseU64_repr hlt]
  exact if_pos ⟨h, trivial⟩

/-! ## The inputs of a hop -/

theorem add_leg {sel : Selection} {leg : Leg} {hash : String} {index : Nat}
    (hhash : leg.prevTxHash = some hash) (hindex : leg.prevOutputIndex = some index)
    (hlt : index < 2 ^ 64) (hnew : spentOutpoint leg ∉ sel.seen)
    (hsum : sel.selected + leg.value < u64Size) :
    sel.add (Leg.toJson leg) = .ok ⟨sel.selected + leg.value, spentOutpoint leg :: sel.seen,
      sel.ids ++ [.string leg.relationshipId]⟩ := by
  have hvalue : (Leg.toJson leg)["value"].asU64 = some leg.value :=
    Value.asU64_ofNat (by unfold u64Size at hsum; omega)
  have hprev : (Leg.toJson leg)["prev_output_index"] = .ofNat index := by
    change optional .ofNat leg.prevOutputIndex = _
    rw [hindex]; rfl
  have htext : (text (Leg.toJson leg)["prev_tx_hash"], index) = spentOutpoint leg := by
    change (text (optional .string leg.prevTxHash), index) = _
    unfold spentOutpoint
    rw [hhash, hindex]; rfl
  have hadd : checkedAdd sel.selected leg.value = some (sel.selected + leg.value) := if_pos hsum
  unfold Selection.add
  rw [hvalue, context_some, ok_bind, hadd, context_some, ok_bind, hprev, Value.asU64_ofNat hlt,
    context_some, ok_bind]
  rw [htext, ensure_eq hnew]
  rfl

theorem select_legs {legs : List Leg} {sel : Selection}
    (hspends : ∀ leg ∈ legs, ∃ hash n, leg.prevTxHash = some hash ∧
      leg.prevOutputIndex = some n ∧ n < 2 ^ 64)
    (hdistinct : (legs.map spentOutpoint).Nodup)
    (hnew : ∀ leg ∈ legs, spentOutpoint leg ∉ sel.seen)
    (hsum : sel.selected + (legs.map Leg.value).sum < u64Size) :
    ∃ seen, (legs.map Leg.toJson).foldlM Selection.add sel =
      .ok ⟨sel.selected + (legs.map Leg.value).sum, seen,
        sel.ids ++ legs.map fun leg => .string leg.relationshipId⟩ := by
  induction legs generalizing sel with
  | nil => exact ⟨sel.seen, by simp; rfl⟩
  | cons leg rest ih =>
    obtain ⟨hash, index, hhash, hindex, hlt⟩ := hspends leg (by simp)
    simp only [List.map_cons, List.sum_cons, List.nodup_cons] at hsum hdistinct
    have hadd := add_leg hhash hindex hlt (hnew leg (by simp)) (by omega)
    have hapart : ∀ l ∈ rest, spentOutpoint l ∉ (⟨sel.selected + leg.value,
        spentOutpoint leg :: sel.seen, sel.ids ++ [.string leg.relationshipId]⟩ : Selection).seen := by
      intro l hl hmem
      rcases List.mem_cons.mp hmem with heq | hmem
      · exact hdistinct.1 (heq ▸ List.mem_map_of_mem hl)
      · exact hnew l (by simp [hl]) hmem
    obtain ⟨seen, hrest⟩ := ih (fun l hl => hspends l (by simp [hl])) hdistinct.2 hapart
      (by simpa [Nat.add_assoc] using hsum)
    refine ⟨seen, ?_⟩
    rw [List.map_cons, List.foldlM_cons, hadd, ok_bind, hrest]
    simp [Nat.add_assoc]

/-! ## One hop -/

/-- The verifier's loop stands where the producer's walk stands; the bounds of
the verifier are set only by its first hop. -/
structure Agree (walk : Walk) (check : Check) : Prop where
  previous : check.previous = walk.previous.map Hop.toJson
  bounds : walk.previous ≠ none → check.low = walk.lower ∧ check.high = walk.upper
  ids : check.ids = walk.ids.map .string
  fits : ∀ prior ∈ walk.previous, walk.upper ≤ prior.output.value

/-- What the next hop brings along: the first one its bounds, a later one the
output that the route has reached. -/
def Enters (walk : Walk) (hop : Hop) : Prop :=
  match walk.previous with
  | none => walk.lower = (hop.inputs.map Leg.value).sum ∧
      walk.upper = (hop.inputs.map Leg.value).sum ∧
      ∃ subject, ∀ leg ∈ hop.inputs, leg.subject = subject
  | some prior => prior.Follows hop

section
variable {parse : String → Except String String} {walk : Walk} {check : Check} {hop : Hop}
  {lo hi : Nat}

theorem inputs_single (h : hop.ins.length = 1) : hop.inputs = [hop.firstInput] := by
  obtain ⟨i, hi⟩ := List.length_eq_one_iff.mp h
  unfold Hop.inputs Hop.firstInput
  simp [hi]

theorem position_toJson (h : Canonical parse hop.tx) : position hop.toJson =
    some (hop.tx.h.blockNumber, hop.tx.h.transactionIndex) := by
  have hblock : hop.toJson["block_number"].asU64 = some hop.tx.h.blockNumber :=
    Value.asU64_ofNat h.typed.blockNumber
  have hindex : hop.toJson["transaction_index"].asU64 = some hop.tx.h.transactionIndex :=
    Value.asU64_ofNat (h.typed.transactionIndex.trans (by decide))
  unfold position
  rw [hblock, hindex]
  rfl

theorem spendsOutput_of_follows {prior : Hop} (hprior : Canonical parse prior.tx)
    (h : prior.Follows hop) : SpendsOutput prior.toJson (hop.inputs.map Leg.toJson) := by
  obtain ⟨hone, hhash, hindex, hvalue, hsubject, _⟩ := h
  obtain ⟨hout, hlt⟩ := output_index hprior
  rw [inputs_single hone]
  refine ⟨Leg.toJson hop.firstInput, rfl, rfl, ?_, ?_, ?_, ?_⟩
  · change optional .string hop.firstInput.prevTxHash = .string prior.tx.h.txHash
    rw [hhash]; rfl
  · change optional .ofNat hop.firstInput.prevOutputIndex = .ofNat prior.output.index
    rw [hindex, hout, Nat.mod_eq_of_lt hlt]; rfl
  · change Value.ofNat hop.firstInput.value = .ofNat prior.output.value
    rw [hvalue]
  · change Value.string hop.firstInput.subject = .string prior.output.subject
    rw [hsubject]

/-- The selected value of a hop lies between the running bound and the total. -/
theorem selected_bounds (hagree : Agree walk check) (hcanonical : Canonical parse hop.tx)
    (henters : Enters walk hop) (hupper : walk.upper ≤ hop.tx.total) :
    walk.upper ≤ (hop.inputs.map Leg.value).sum ∧
      (hop.inputs.map Leg.value).sum ≤ hop.tx.total := by
  unfold Enters at henters
  split at henters
  · rw [← henters.2.1]; exact ⟨Nat.le_refl _, hupper⟩
  · rename_i prior hprevious
    obtain ⟨hone, _, _, hvalue, _⟩ := henters
    have hfits := hagree.fits prior hprevious
    rw [inputs_single hone]
    simp only [List.map_cons, List.map_nil, List.sum_cons, List.sum_nil, Nat.add_zero]
    refine ⟨by omega, ?_⟩
    rw [hcanonical.isLoaded.total]
    refine List.single_le_sum (fun _ _ => Nat.zero_le _) _ (List.mem_map_of_mem ?_)
    exact List.getElem_mem _

theorem enter_agrees (hagree : Agree walk check)
    (hprior : ∀ prior ∈ walk.previous, Canonical parse prior.tx)
    (hcanonical : Canonical parse hop.tx) (henters : Enters walk hop) :
    check.enter hop.toJson (hop.inputs.map Leg.toJson) (hop.inputs.map Leg.value).sum =
      .ok (walk.lower, walk.upper) := by
  have hprevious := hagree.previous
  unfold Enters at henters
  unfold Check.enter
  split at henters
  · rename_i hnone
    obtain ⟨hlower, hupper, subject, hsubject⟩ := henters
    rw [hprevious, hnone]
    have hsame : ∀ i ∈ hop.inputs.map Leg.toJson,
        i["subject"] = ((hop.inputs.map Leg.toJson).headD .null)["subject"] := by
      have hall : ∀ i ∈ hop.inputs.map Leg.toJson, i["subject"] = .string subject := by
        intro i hi
        obtain ⟨leg, hleg, rfl⟩ := List.mem_map.mp hi
        exact congrArg Value.string (hsubject leg hleg)
      intro i hi
      cases hlegs : hop.inputs.map Leg.toJson with
      | nil => rw [hlegs] at hi; cases hi
      | cons first rest =>
        rw [hall i hi]
        exact (hall first (by simp [hlegs])).symm
    change (ensure _ _ >>= _) = _
    rw [ensure_eq hsame, hlower, hupper]
    rfl
  · rename_i prior hsome
    have hfollows := henters
    obtain ⟨_, _, _, _, _, hbefore⟩ := henters
    have hspends := spendsOutput_of_follows (hprior prior hsome) hfollows
    rw [hprevious, hsome]
    change (ensure (SpendsOutput prior.toJson _) _ >>= _) = _
    rw [ensure_eq hspends, ok_bind, position_toJson (hprior prior hsome), context_some, ok_bind,
      position_toJson hcanonical, context_some, ok_bind]
    have horder : Before (prior.tx.h.blockNumber, prior.tx.h.transactionIndex)
        (hop.tx.h.blockNumber, hop.tx.h.transactionIndex) := hbefore
    obtain ⟨hlow, hhigh⟩ := hagree.bounds (by simp [hsome])
    rw [ensure_eq horder, ok_bind, hlow, hhigh]
    rfl

/-- A hop that the producer takes passes the verifier, and both go on together. -/
theorem step_agrees (hagree : Agree walk check)
    (hprior : ∀ prior ∈ walk.previous, Canonical parse prior.tx)
    (hcanonical : Canonical parse hop.tx) (hdistinct : hop.ins.Nodup) (henters : Enters walk hop)
    (halloc : allocate walk.lower walk.upper hop.tx.total hop.output.value = .ok (lo, hi)) :
    ∃ next, check.step hop.toJson (allocationRow walk.lower walk.upper hop.tx.total
        hop.output.value hop.tx.fee lo hi) = .ok next ∧
      Agree (walk.extend hop lo hi) next ∧ next.txs = check.txs ++ [.string hop.tx.h.txHash] := by
  obtain ⟨⟨horder, hupper, houtput, htotal⟩, hbounds⟩ := allocate_ok halloc
  obtain ⟨rfl, rfl⟩ := Prod.mk.inj hbounds
  obtain ⟨hlow, hhigh⟩ := selected_bounds hagree hcanonical henters hupper
  have hconserves := hcanonical.conserves
  have hpart := output_le_sum hop
  have hsupply : Transactions.supply = supply := rfl
  have hsize : hop.tx.total < 2 ^ 64 := htotal.trans_lt (by decide)
  have hinputs : hop.toJson["inputs"].asArray = some (hop.inputs.map Leg.toJson) := rfl
  have hcount : hop.inputs.map Leg.toJson ≠ [] ∧ (hop.inputs.map Leg.toJson).length ≤ 2000 := by
    refine ⟨by simpa [Hop.inputs] using hop.spends, ?_⟩
    have hle := List.Nodup.length_le_card hdistinct
    rw [Fintype.card_fin] at hle
    have hmost : hop.ins.length ≤ 2000 := hle.trans hcanonical.lengths.1
    simpa [Hop.inputs] using hmost
  have hnew : ∀ leg ∈ hop.inputs, spentOutpoint leg ∉ (⟨0, [], []⟩ : Selection).seen := by simp
  obtain ⟨seen, hselect⟩ := select_legs (fun leg => spends_of_mem hcanonical)
    (outpoints_nodup hcanonical hdistinct) hnew (by simp only [Nat.zero_add, u64Size]; omega)
  rw [Nat.zero_add, List.nil_append] at hselect
  have hvalue : hop.toJson["output"]["value"].asU64 = some hop.output.value :=
    Value.asU64_ofNat (by omega)
  have henter := enter_agrees hagree hprior hcanonical henters
  unfold Check.step
  rw [hinputs, context_some, ok_bind, ensure_eq hcount, ok_bind, hselect, ok_bind, henter, ok_bind]
  change ∃ next, (context (exact (decimal hop.tx.total)) _ >>= _) = _ ∧ _
  rw [exact_decimal htotal, context_some, ok_bind, hvalue, context_some, ok_bind,
    ensure_eq ⟨hhigh, hlow, houtput⟩, ok_bind]
  change ∃ next, (context (exact (decimal hop.tx.fee)) _ >>= _) = _ ∧ _
  rw [exact_decimal (by omega), context_some, ok_bind, subU64_eq houtput, ok_bind,
    ensure_eq (by omega), ok_bind]
  have hspelled : exact (decimal walk.lower) = some walk.lower ∧
      exact (decimal walk.upper) = some walk.upper ∧
      exact (decimal hop.output.value) = some hop.output.value :=
    ⟨exact_decimal (by omega), exact_decimal (by omega), exact_decimal (by omega)⟩
  have hresult : exact (decimal (walk.lower - (hop.tx.total - hop.output.value))) =
        some (walk.lower - (hop.tx.total - hop.output.value)) ∧
      exact (decimal (min walk.upper hop.output.value)) = some (min walk.upper hop.output.value) :=
    ⟨exact_decimal (by omega), exact_decimal (by omega)⟩
  change ∃ next, (ensure (exact (decimal walk.lower) = _ ∧ exact (decimal walk.upper) = _ ∧
    exact (decimal hop.output.value) = _) _ >>= _) = _ ∧ _
  rw [ensure_eq hspelled, ok_bind]
  change ∃ next, (ensure (exact (decimal _) = _ ∧ exact (decimal _) = _) _ >>= _) = _ ∧ _
  rw [ensure_eq hresult, ok_bind]
  refine ⟨_, rfl, ⟨rfl, fun _ => ⟨rfl, rfl⟩, ?_, ?_⟩, rfl⟩
  · change check.ids ++ _ ++ _ = List.map Value.string (walk.ids ++ _ ++ _)
    rw [hagree.ids, List.map_append, List.map_append, List.map_map]
    rfl
  · intro prior hprior
    cases hprior
    exact Nat.min_le_right ..

/-! ## The route -/

theorem step_ok {next : Walk} (h : walk.step hop = .ok next) :
    (∀ prior ∈ walk.previous, prior.Follows hop) ∧ ∃ lo hi, next = walk.extend hop lo hi ∧
      allocate walk.lower walk.upper hop.tx.total hop.output.value = .ok (lo, hi) := by
  obtain ⟨_, hfollows, h⟩ := bind_ok h
  obtain ⟨⟨lo, hi⟩, halloc, h⟩ := bind_ok h
  exact ⟨ensure_ok hfollows, lo, hi, (Except.ok.inj h).symm, halloc⟩

/-- The whole walk, by induction on the hops that are left. -/
theorem walk_agrees {hops : List Hop} {last : Walk} (hagree : Agree walk check)
    (hprior : ∀ prior ∈ walk.previous, Canonical parse prior.tx)
    (hcanonical : ∀ hop ∈ hops, Canonical parse hop.tx)
    (hfirst : walk.previous = none → ∀ hop ∈ hops.head?, Enters walk hop ∧ hop.ins.Nodup)
    (h : hops.foldlM Walk.step walk = .ok last) :
    ∃ rows final, last.allocation = walk.allocation ++ rows ∧ rows.length = hops.length ∧
      last.hops = walk.hops ++ hops.map Hop.toJson ∧
      ((hops.map Hop.toJson).zip rows).foldlM (fun check hop => check.step hop.1 hop.2) check =
        .ok final ∧
      Agree last final ∧ (walk.previous ≠ none ∨ hops ≠ [] → last.previous ≠ none) ∧
      final.txs = check.txs ++ hops.map fun hop => .string hop.tx.h.txHash := by
  induction hops generalizing walk check with
  | nil =>
    cases h
    exact ⟨[], check, by simp, rfl, by simp, rfl, hagree, by simp, by simp⟩
  | cons hop rest ih =>
    rw [List.foldlM_cons] at h
    obtain ⟨next, hstep, h⟩ := bind_ok h
    obtain ⟨hfollows, lo, hi, rfl, halloc⟩ := step_ok hstep
    have hone : Enters walk hop ∧ hop.ins.Nodup := by
      cases hprevious : walk.previous with
      | none => exact hfirst hprevious hop rfl
      | some prior =>
        have hprior := hfollows prior hprevious
        refine ⟨by unfold Enters; rw [hprevious]; exact hprior, ?_⟩
        obtain ⟨i, hi⟩ := List.length_eq_one_iff.mp hprior.1
        rw [hi]; exact List.nodup_singleton i
    have hcanonicalHop := hcanonical hop (by simp)
    obtain ⟨checked, hchecked, hnext, htxs⟩ :=
      step_agrees hagree hprior hcanonicalHop hone.2 hone.1 halloc
    have hpriorNext : ∀ prior ∈ (walk.extend hop lo hi).previous, Canonical parse prior.tx := by
      intro prior hmem
      cases hmem
      exact hcanonicalHop
    have hlater : (walk.extend hop lo hi).previous = none →
        ∀ hop' ∈ rest.head?, Enters (walk.extend hop lo hi) hop' ∧ hop'.ins.Nodup := by
      intro hnone; cases hnone
    obtain ⟨rows, final, hrows, hlength, hhops, hfinal, hlast, hentered, hfinalTxs⟩ :=
      ih hnext hpriorNext (fun hop' hmem => hcanonical hop' (by simp [hmem])) hlater h
    refine ⟨allocationRow walk.lower walk.upper hop.tx.total hop.output.value hop.tx.fee lo hi ::
      rows, final, ?_, by simp [hlength], ?_, ?_, hlast,
      fun _ => hentered (Or.inl (by simp [Walk.extend])), ?_⟩
    · rw [hrows]; simp [Walk.extend]
    · rw [hhops]; simp [Walk.extend]
    · rw [List.map_cons, List.zip_cons_cons, List.foldlM_cons, hchecked, ok_bind]
      exact hfinal
    · rw [hfinalTxs, htxs]; simp

end

/-! ## The seed -/

section
variable {F : FloatOps} {subject : String} {row : ClaimRow}

theorem shown_index (row : ClaimRow) (verdict : Bool) {key : String} (hactive : key ≠ "active")
    (hseed : key ≠ "is_exposure_seed") : (shown F row verdict)[key] = (row.public F)[key] := by
  unfold shown
  rw [Value.index_set_ne hseed, Value.index_set_ne hactive]

theorem shown_get (row : ClaimRow) (verdict : Bool) {key : String} (hactive : key ≠ "active")
    (hseed : key ≠ "is_exposure_seed") : (shown F row verdict).get key = (row.public F).get key := by
  unfold shown
  rw [Value.get_set_ne hseed, Value.get_set_ne hactive]

theorem entity_approvedLabel (h : Entity subject row) : approvedLabel (shown F row true) = true := by
  have hrefs : array ((shown F row true).get "evidence_refs") = row.evidenceRefs.map .string := by
    rw [shown_get row true (by decide) (by decide)]; rfl
  have hstatus : (shown F row true)["review_status"] = .string "approved" := by
    rw [shown_index row true (by decide) (by decide), ← h.approved]; rfl
  have hsource : (shown F row true)["source_id"] = .string row.sourceId := by
    rw [shown_index row true (by decide) (by decide)]; rfl
  unfold approvedLabel
  simp only [hrefs, hstatus, hsource, Bool.and_eq_true]
  refine ⟨⟨⟨by decide, ?_⟩, ?_⟩, ?_⟩
  · change (!blank row.sourceId) = true
    rw [h.sourced]; rfl
  · simpa using h.referenced.1
  · rw [List.all_map, List.all_eq_true]
    intro r hr
    change (!blank r) = true
    rw [h.referenced.2 r hr]; rfl

theorem entity_bitcoinLabel {id : String} (hid : hex id 64 = true) (h : Entity subject row) :
    bitcoinLabel (shown F row true) (shown F row true)["address"] (snapshotOf subject id) = true := by
  have haddress : (shown F row true)["address"] = .string subject := by
    rw [shown_index row true (by decide) (by decide), ← h.address_eq]; rfl
  have hnetwork : (shown F row true)["network_id"] = .string Network.bitcoin.id := by
    rw [shown_index row true (by decide) (by decide), ← h.networkId]; rfl
  have hreviewer : (shown F row true)["reviewed_by"] = .string row.reviewedBy := by
    rw [shown_index row true (by decide) (by decide)]; rfl
  obtain ⟨hblank, at', hat, hlt⟩ := h.reviewed
  have hreviewed : (shown F row true)["reviewed_at_unix_ms"] = .ofNat at' := by
    rw [shown_index row true (by decide) (by decide)]
    change Intelligence.optional .ofNat row.reviewedAtUnixMs = _
    rw [hat]; rfl
  have hactive : (shown F row true)["active"] = .bool true := by
    unfold shown
    rw [Value.index_set_ne (by decide)]
    rfl
  unfold bitcoinLabel
  rw [haddress, hnetwork, hreviewer, hreviewed, hactive, Value.asU64_ofNat hlt]
  rw [decide_eq_true_eq]
  refine ⟨rfl, rfl, rfl, ?_, rfl, rfl, rfl, ?_, rfl⟩
  · change hex id 64 = true
    exact hid
  · change (!blank row.reviewedBy) = true
    rw [hblank]; rfl

end

/-! ## The path -/

section
variable {F : FloatOps} {digest : Value → String} {address : String} {incoming mediated : Bool}
  {first : Hop} {rest : List Hop} {claim seedSnapshot path : Value} {now : Nat}

def lastHop (first : Hop) (rest : List Hop) : Hop :=
  (first :: rest).getLast (List.cons_ne_nil _ _)

theorem makePath_some
    (h : makePath F digest address incoming first rest claim seedSnapshot mediated now =
      .ok (some path)) :
    ∃ walk pathId seedId refs, walkPath first rest = .ok walk ∧
      path = pathValue F address incoming (first :: rest) first (lastHop first rest) claim
        seedSnapshot mediated walk pathId seedId
        (F.div (F.ofNat walk.lower) (F.ofNat (max (lastHop first rest).output.value 1)))
        (halfLife F now (lastHop first rest).tx.h.blockTimestampUnixMs)
        (strength F claim
          (F.div (F.ofNat walk.lower) (F.ofNat (max (lastHop first rest).output.value 1)))
          (halfLife F now (lastHop first rest).tx.h.blockTimestampUnixMs) (rest.length + 1))
        refs := by
  obtain ⟨walk, hwalk, h⟩ := bind_ok h
  split at h
  · cases h
  · obtain ⟨refs, _, h⟩ := bind_ok h
    exact ⟨walk, _, _, refs, hwalk, (Option.some.inj (Except.ok.inj h)).symm⟩

/-- A field of a path that the frame of its run leaves alone. -/
theorem finish_index (F : FloatOps) (runId : String) (path : Value) {key : String}
    (hrun : key ≠ "run_id") (hpolicy : key ≠ "policy_version") :
    (finish F runId false path)[key] = path[key] := by
  unfold finish
  change ((path.set "run_id" _).set "policy_version" _)[key] = _
  rw [Value.index_set_ne hpolicy, Value.index_set_ne hrun]

theorem finish_runId (F : FloatOps) (runId : String) (fields : List (String × Value)) :
    (finish F runId false (.object fields))["run_id"] = .string runId := by
  unfold finish
  change (((Value.object fields).set "run_id" (.string runId)).set "policy_version"
    (.string "bitcoin_utxo_bounds_v1"))["run_id"] = _
  rw [Value.index_set_ne (by decide)]
  rfl

/-- The walk of a path and the verifier's loop over its JSON come to the same end. -/
theorem hops_checked {parse : String → Except String String} {walk : Walk}
    (hcanonical : ∀ hop ∈ first :: rest, Canonical parse hop.tx) (hdistinct : first.ins.Nodup)
    (hsubject : ∃ subject, ∀ leg ∈ first.inputs, leg.subject = subject)
    (hwalk : walkPath first rest = .ok walk) :
    ∃ check, checkHops ((first :: rest).map Hop.toJson) walk.allocation = .ok check ∧
      walk.hops = (first :: rest).map Hop.toJson ∧ walk.allocation.length = rest.length + 1 ∧
      check.low = walk.lower ∧ check.high = walk.upper ∧ check.ids = walk.ids.map .string ∧
      check.txs = (first :: rest).map fun hop => .string hop.tx.h.txHash := by
  obtain ⟨lower, hlower, hwalk⟩ := bind_ok hwalk
  have hsum : lower = (first.inputs.map Leg.value).sum := Transactions.sumU64_ok hlower
  have hagree : Agree (Walk.start first lower) ⟨none, 0, 0, [], []⟩ :=
    ⟨rfl, fun hne => absurd rfl hne, rfl, by simp [Walk.start]⟩
  have hentered : (Walk.start first lower).previous = none →
      ∀ hop ∈ (first :: rest).head?, Enters (Walk.start first lower) hop ∧ hop.ins.Nodup := by
    intro _ hop hhop
    cases hhop
    exact ⟨⟨hsum, hsum, hsubject⟩, hdistinct⟩
  obtain ⟨rows, check, hrows, hlength, hhops, hfinal, hlast, hprevious, htxs⟩ :=
    walk_agrees hagree (by simp [Walk.start]) hcanonical hentered hwalk
  obtain ⟨hlow, hhigh⟩ := hlast.bounds (hprevious (Or.inr (List.cons_ne_nil _ _)))
  have hallocation : walk.allocation = rows := hrows
  rw [hallocation]
  exact ⟨check, hfinal, hhops, hlength, hlow, hhigh, hlast.ids, htxs⟩

/-! ### The strength -/

theorem clamp_le {x : ℚ} (h : 0 ≤ x) : clamp x 0 1 ≤ x := max_le h (min_le_left x 1)

/-- Without rounding, the producer's score does not exceed the verifier's maximum. -/
theorem strength_le (hF : F.Exact) {row : ClaimRow} {share weight : ℚ} {hops : Nat}
    (hconfidence : 0 ≤ row.confidence) (hshare : 0 ≤ share) (hweight : 0 ≤ weight) :
    strength F (shown F row true) share weight hops ≤
      F.add (F.mul (F.mul (F.mul (F.div (F.mul row.confidence (F.ofNat row.riskLevel)) 100) share)
        (F.powi (13 / 20) (hops - 1))) weight) (1 / 10 ^ 12) := by
  have hconf : (shown F row true)["confidence"].asF64.getD 0 = row.confidence := by
    rw [shown_index row true (by decide) (by decide)]; rfl
  have hrisk : (shown F row true)["risk_level"].asF64.getD 0 = (row.riskLevel : ℚ) := by
    rw [shown_index row true (by decide) (by decide)]; rfl
  unfold strength
  rw [hconf, hrisk, hF.ofNat]
  simp only [hF.mul, hF.div, hF.add, hF.powi]
  have hnonneg : 0 ≤ row.confidence * (row.riskLevel : ℚ) / 100 * share *
      (13 / 20) ^ (hops - 1) * weight := by positivity
  refine (clamp_le hnonneg).trans ?_
  linarith [show (0 : ℚ) ≤ 1 / 10 ^ 12 by positivity]

/-! ### The fields around the hops -/

section
variable {hops : List Hop} {last : Hop} {walk : Walk} {pathId seedId : String}
  {share weight score : ℚ} {refs : List Value} {runId snapshotId sourceSnapshotId : String}
  {pathIds : List Value} {data : Value}

theorem pathValue_framed
    (hdata : Presented address runId snapshotId sourceSnapshotId pathIds data)
    (heligible : (decide (walk.lower > 0) && !mediated) = true)
    (hlisted : .string pathId ∈ pathIds) :
    Framed (finish F runId false (pathValue F address incoming hops first last claim seedSnapshot
      mediated walk pathId seedId share weight score refs)) data := by
  unfold Framed
  rw [hdata.snapshot, hdata.networkId, hdata.address_eq, hdata.source, hdata.complete]
  refine ⟨rfl, rfl, rfl, rfl, ?_, ?_, rfl, ?_, ?_, ?_, ?_, ?_, ?_, by simp, ?_⟩
  · rw [finish_index _ _ _ (by decide) (by decide)]; rfl
  · rw [finish_index _ _ _ (by decide) (by decide)]; rfl
  · exact finish_runId F runId _
  · rw [finish_index _ _ _ (by decide) (by decide)]; rfl
  · rw [finish_index _ _ _ (by decide) (by decide)]; rfl
  · rw [finish_index _ _ _ (by decide) (by decide)]
    change Value.bool _ = _
    rw [heligible]
  · rw [finish_index _ _ _ (by decide) (by decide)]; rfl
  · rw [finish_index _ _ _ (by decide) (by decide)]; rfl
  · rw [finish_index _ _ _ (by decide) (by decide)]
    exact hlisted

theorem pathValue_seeded {subject id : String} {row : ClaimRow} (hid : hex id 64 = true)
    (hentity : Entity subject row) (hseed : (shown F row true)["is_exposure_seed"] = .bool true) :
    Seeded (finish F runId false (pathValue F address incoming hops first last (shown F row true)
      (snapshotOf subject id) mediated walk pathId seedId share weight score refs)) := by
  unfold Seeded
  rw [finish_index _ _ _ (by decide) (by decide), finish_index _ _ _ (by decide) (by decide),
    finish_index _ _ _ (by decide) (by decide)]
  exact ⟨entity_approvedLabel hentity, hseed, rfl, entity_bitcoinLabel hid hentity⟩

theorem pathValue_totalled {check : Check} (hlow : check.low = walk.lower)
    (hhigh : check.high = walk.upper) (hids : check.ids = walk.ids.map .string)
    (htxs : check.txs = hops.map fun hop => .string hop.tx.h.txHash)
    (hpositive : 0 < walk.lower) (horder : walk.lower ≤ walk.upper) (hsupply : walk.upper ≤ supply) :
    Totalled (finish F runId false (pathValue F address incoming hops first last claim seedSnapshot
      mediated walk pathId seedId share weight score refs)) check := by
  unfold Totalled
  rw [finish_index _ _ _ (by decide) (by decide), finish_index _ _ _ (by decide) (by decide),
    finish_index _ _ _ (by decide) (by decide), finish_index _ _ _ (by decide) (by decide), hlow, hhigh]
  refine ⟨by omega, ?_, ?_, exact_decimal (by omega), exact_decimal (by omega),
    exact_decimal hsupply⟩
  · rw [hids]; rfl
  · change strings (hops.map fun hop => hop.tx.h.txHash) = _
    rw [htxs]; simp [strings, Function.comp_def]

end

/-- The seed filter of the scan is the verifier's check of validity. -/
theorem seed_validity {edge : Hop} {at' : Nat} (hat : at' = edge.tx.h.blockTimestampUnixMs)
    (htyped : Typed edge.tx.h) (hseed : seed claim at' = true) :
    checkValidity claim edge.toJson = .ok () := by
  have hedge : edge.toJson["timestamp_unix_ms"].asU64 = some at' := by
    rw [hat]; exact Value.asU64_ofNat htyped.timestamp
  unfold seed at hseed
  rw [decide_eq_true_eq] at hseed
  obtain ⟨_, _, hfrom, hto⟩ := hseed
  obtain ⟨start, hstart, hle⟩ := (Option.any_eq_true _ _).mp hfrom
  unfold checkValidity
  rw [hedge, context_some, ok_bind, hstart, context_some, ok_bind,
    ensure_eq (of_decide_eq_true hle), ok_bind]
  rcases hto with hnull | hto
  · rw [if_pos hnull]; rfl
  · obtain ⟨end', hend, hlt⟩ := (Option.any_eq_true _ _).mp hto
    have hne : claim["valid_to_unix_ms"] ≠ .null := by
      intro hnull; rw [hnull] at hend; cases hend
    rw [if_neg hne, hend, context_some, ok_bind, ensure_eq (of_decide_eq_true hlt)]

/-- The verifier's floating-point guard, on the producer's own numbers. -/
theorem pathValue_strength (hF : F.Exact) {row : ClaimRow} {hops : List Hop} {walk : Walk}
    {pathId seedId runId : String} {weight : ℚ} {refs : List Value} {edge last : Hop}
    (hrisk : 1 ≤ row.riskLevel ∧ row.riskLevel ≤ 100)
    (hconfidence : 0 ≤ row.confidence ∧ row.confidence ≤ 1) (hweight : 0 ≤ weight ∧ weight ≤ 1)
    (hvalue : last.output.value < 2 ^ 64) :
    checkStrength F (finish F runId false (pathValue F address incoming hops first edge
      (shown F row true) seedSnapshot false walk pathId seedId
      (F.div (F.ofNat walk.lower) (F.ofNat (max last.output.value 1))) weight
      (strength F (shown F row true)
        (F.div (F.ofNat walk.lower) (F.ofNat (max last.output.value 1))) weight hops.length) refs))
      last.toJson walk.lower hops.length = .ok () := by
  have hoffered : last.toJson["output"]["value"].asU64 = some last.output.value :=
    Value.asU64_ofNat hvalue
  have hconf : (shown F row true)["confidence"].asF64 = some row.confidence := by
    rw [shown_index row true (by decide) (by decide)]; rfl
  have hlevel : (shown F row true)["risk_level"].asU64 = some row.riskLevel := by
    rw [shown_index row true (by decide) (by decide)]
    exact Value.asU64_ofNat (hrisk.2.trans_lt (by decide))
  unfold checkStrength
  rw [finish_index _ _ _ (by decide) (by decide), finish_index _ _ _ (by decide) (by decide),
    finish_index _ _ _ (by decide) (by decide), finish_index _ _ _ (by decide) (by decide),
    hoffered, context_some, ok_bind]
  change (context (float F weight).asF64 _ >>= _) = _
  rw [asF64_float, context_some, ok_bind]
  change (context (shown F row true)["confidence"].asF64 _ >>= fun confidence =>
    context (shown F row true)["risk_level"].asU64 _ >>= _) = _
  rw [hconf, context_some, ok_bind, hlevel, context_some, ok_bind]
  have hshare : 0 ≤ F.div (F.ofNat walk.lower) (F.ofNat (max last.output.value 1)) := by
    rw [hF.div, hF.ofNat, hF.ofNat]; positivity
  have hguard : 0 ≤ weight ∧ weight ≤ 1 ∧ 0 ≤ row.confidence ∧ row.confidence ≤ 1 ∧
      row.riskLevel ≠ 0 ∧ row.riskLevel ≤ 100 ∧
      |F.sub (F.div (F.ofNat walk.lower) (F.ofNat (max last.output.value 1)))
        (F.div (F.ofNat walk.lower) (F.ofNat (max last.output.value 1)))| ≤ 1 / 10 ^ 12 := by
    refine ⟨hweight.1, hweight.2, hconfidence.1, hconfidence.2, by omega, hrisk.2, ?_⟩
    rw [hF.sub, sub_self, abs_zero]
    positivity
  change (ensure (0 ≤ weight ∧ weight ≤ 1 ∧ 0 ≤ row.confidence ∧ row.confidence ≤ 1 ∧
      row.riskLevel ≠ 0 ∧ row.riskLevel ≤ 100 ∧ |F.sub (F.div _ _) _| ≤ 1 / 10 ^ 12) _ >>= _) = _
  rw [ensure_eq hguard, ok_bind]
  exact ensure_eq (strength_le hF hconfidence.1 hshare hweight.1)

/-- The bounds that a walk ends with, and the output that they fit in. -/
theorem walk_bounds {walk : Walk} (h : walkPath first rest = .ok walk) :
    walk.lower ≤ walk.upper ∧ walk.upper ≤ supply ∧
      (lastHop first rest).output.value ≤ supply := by
  obtain ⟨lower, _, h⟩ := bind_ok h
  have hsteps : ∀ (hops : List Hop) (start : Walk), start.lower ≤ start.upper →
      hops ≠ [] → hops.foldlM Walk.step start = .ok walk →
      walk.lower ≤ walk.upper ∧ walk.upper ≤ supply ∧
        ∀ hop ∈ hops.getLast?, hop.output.value ≤ supply := by
    clear h
    intro hops
    induction hops with
    | nil => intro start _ hne; exact absurd rfl hne
    | cons hop hops ih =>
      intro start horder _ h
      rw [List.foldlM_cons] at h
      obtain ⟨next, hstep, h⟩ := bind_ok h
      obtain ⟨_, lo, hi, rfl, halloc⟩ := step_ok hstep
      obtain ⟨⟨_, hupper, houtput, htotal⟩, hbounds⟩ := allocate_ok halloc
      obtain ⟨rfl, rfl⟩ := Prod.mk.inj hbounds
      have hnext : start.lower - (hop.tx.total - hop.output.value) ≤
          min start.upper hop.output.value := by omega
      cases hops with
      | nil =>
        cases h
        refine ⟨hnext, (Nat.min_le_left _ _).trans (hupper.trans htotal), ?_⟩
        intro other hother
        cases hother
        exact houtput.trans htotal
      | cons other hops =>
        have hrest := ih _ hnext (List.cons_ne_nil _ _) h
        rwa [List.getLast?_cons_cons]
  obtain ⟨horder, hupper, hlast⟩ := hsteps (first :: rest) (Walk.start first lower) (Nat.le_refl _)
    (List.cons_ne_nil _ _) h
  exact ⟨horder, hupper, hlast _ (List.getLast?_eq_some_getLast (List.cons_ne_nil _ _))⟩

theorem pathValue_ends {subject id : String} {row : ClaimRow} {walk : Walk} {runId : String}
    {data : Value} {share weight score : ℚ} {pathId seedId : String} {refs : List Value}
    (hshape : ∀ leg ∈ first.inputs, leg.subject = if incoming then subject else address)
    (htarget : (lastHop first rest).output.subject = if incoming then address else subject)
    (hentity : Entity subject row) (haddress : data["address"] = .string address) :
    Ends (finish F runId false (pathValue F address incoming (first :: rest) first
      (lastHop first rest) (shown F row true) (snapshotOf subject id) mediated walk pathId seedId
      share weight score refs)) data first.toJson (lastHop first rest).toJson := by
  have hseed : (shown F row true)["address"] = .string subject := by
    rw [shown_index row true (by decide) (by decide), ← hentity.address_eq]; rfl
  have hsource : fromSubject first.toJson = if incoming then subject else address := by
    obtain ⟨i, others, hins⟩ := List.exists_cons_of_ne_nil first.spends
    have hmem : first.input i ∈ first.inputs := List.mem_map_of_mem (by simp [hins])
    have hjson : first.toJson["inputs"].asArray =
        some (Leg.toJson (first.input i) :: others.map fun i => Leg.toJson (first.input i)) := by
      change some (first.inputs.map Leg.toJson) = _
      simp [Hop.inputs, hins]
    rw [← hshape _ hmem]
    unfold fromSubject
    rw [hjson]
    rfl
  have hsink : toSubject (lastHop first rest).toJson = if incoming then address else subject := htarget
  unfold Ends
  rw [finish_index _ _ _ (by decide) (by decide), finish_index _ _ _ (by decide) (by decide),
    haddress, hsource, hsink]
  change if Value.string (if incoming then _ else _) = _ then
    _ = text (shown F row true)["address"] ∧ _ else _ ∧ _ ∧ _ = text (shown F row true)["address"]
  rw [hseed]
  cases incoming with
  | true => exact ⟨rfl, rfl⟩
  | false => exact ⟨rfl, rfl, rfl⟩

/-- Whatever scoreable path `make_path` returns on a route of a scan, from an
approved and active seed, the verifier accepts once its run is complete. -/
theorem eligible_path_accepted {parse : String → Except String String} {maxHops at' : Nat}
    {subject id : String} {row : ClaimRow} {runId snapshotId sourceSnapshotId : String}
    {pathIds : List Value} {data : Value} (hF : F.Exact) (hmax : 1 ≤ maxHops ∧ maxHops ≤ 5)
    (hroute : Routed parse address maxHops incoming subject at' (first :: rest))
    (hseed : seed (shown F row true) at' = true) (hentity : Entity subject row)
    (hid : hex id 64 = true) (hrisk : 1 ≤ row.riskLevel ∧ row.riskLevel ≤ 100)
    (hconfidence : 0 ≤ row.confidence ∧ row.confidence ≤ 1)
    (hweight : 0 ≤ halfLife F now (lastHop first rest).tx.h.blockTimestampUnixMs ∧
      halfLife F now (lastHop first rest).tx.h.blockTimestampUnixMs ≤ 1)
    (hpath : makePath F digest address incoming first rest (shown F row true)
      (snapshotOf subject id) mediated now = .ok (some path))
    (heligible : path["score_eligible"] = .bool true)
    (hdata : Presented address runId snapshotId sourceSnapshotId pathIds data)
    (hlisted : path["path_id"] ∈ pathIds) :
    bitcoinExposure F (finish F runId false path) data = .ok () := by
  obtain ⟨walk, pathId, seedId, refs, hwalk, rfl⟩ := makePath_some hpath
  have hshape := routed_shape hmax.1 hroute
  have hscored : (decide (walk.lower > 0) && !mediated) = true := Value.bool.inj heligible
  obtain ⟨hpositive, hdirect⟩ := Bool.and_eq_true_iff.mp hscored
  have hpositive := of_decide_eq_true hpositive
  obtain rfl : mediated = false := by simpa using hdirect
  obtain ⟨check, hcheck, hhops, hsteps, hlow, hhigh, hids, htxs⟩ :=
    hops_checked hshape.canonical hshape.distinct ⟨_, hshape.source⟩ hwalk
  obtain ⟨horder, hupper, hoffered⟩ := walk_bounds hwalk
  have hlength : rest.length + 1 ≤ 5 := hshape.length.trans hmax.2
  unfold bitcoinExposure
  rw [ensure_eq (pathValue_framed hdata hscored hlisted), ok_bind]
  have hflag : (shown F row true)["is_exposure_seed"] = .bool true := by
    unfold seed at hseed
    rw [decide_eq_true_eq] at hseed
    exact hseed.1
  rw [ensure_eq (pathValue_seeded hid hentity hflag), ok_bind,
    finish_index _ _ _ (by decide) (by decide), finish_index _ _ _ (by decide) (by decide),
    finish_index _ _ _ (by decide) (by decide), finish_index _ _ _ (by decide) (by decide),
    finish_index _ _ _ (by decide) (by decide)]
  change (context (some walk.hops) _ >>= fun hops => context (some walk.allocation) _ >>= _) = _
  rw [context_some, ok_bind, context_some, ok_bind, hhops]
  have hcount : (Value.ofNat (rest.length + 1)).asU64 = some (rest.length + 1) :=
    Value.asU64_ofNat (by omega)
  have hsize : ((first :: rest).map Hop.toJson).length = rest.length + 1 := by simp
  have hlast : ((first :: rest).map Hop.toJson).getLast? = some (lastHop first rest).toJson := by
    rw [List.getLast?_map, List.getLast?_eq_some_getLast (List.cons_ne_nil _ _)]; rfl
  rw [hsize, hsteps, ensure_eq ⟨by omega, hlength, rfl, hcount, rfl⟩, ok_bind, hcheck, ok_bind,
    ensure_eq (pathValue_totalled hlow hhigh hids htxs hpositive horder hupper), ok_bind, hlast]
  change (ensure (Ends _ data first.toJson (lastHop first rest).toJson) _ >>= _) = _
  rw [ensure_eq (pathValue_ends hshape.source hshape.target hentity hdata.address_eq), ok_bind]
  change (checkValidity (shown F row true)
    (if Value.string (if incoming then "RECEIVED_FROM_SEED" else "SENT_TO_SEED") =
      .string "RECEIVED_FROM_SEED" then _ else _) >>= _) = _
  have hedge : checkValidity (shown F row true)
      (if Value.string (if incoming then "RECEIVED_FROM_SEED" else "SENT_TO_SEED") =
        .string "RECEIVED_FROM_SEED" then first.toJson else (lastHop first rest).toJson) =
      .ok () := by
    have hlastTyped := (hshape.canonical _ (List.getLast_mem (List.cons_ne_nil first rest))).typed
    cases incoming with
    | true => exact seed_validity hshape.valid (hshape.canonical first (by simp)).typed hseed
    | false => exact seed_validity hshape.valid hlastTyped hseed
  rw [hedge, ok_bind, hlow]
  exact pathValue_strength hF hrisk hconfidence hweight (hoffered.trans_lt (by decide))

end

/-! The two hops of a sample route, found backwards from its subject. -/

open AmlReal.Bitcoin.RouteBounds (sampleFirst sampleSecond sampleSeed sampleSubject)

/-- The graph edge that a leg is read from. -/
def sampleEdge (tx : Tx) (incoming : Bool) (leg : Leg) : Value := .object [
  ("block_hash", .string tx.h.blockHash), ("tx_hash", .string tx.h.txHash),
  ("revision", decimal tx.h.revision), ("commit_id", .string tx.h.commitId),
  ("transfer_type", .string (if incoming then "utxo_input" else "utxo_output")),
  ("from_subject_id", .string leg.subject), ("to_subject_id", .string leg.subject),
  ("amount", decimal leg.value), ("input_index", .ofNat leg.index),
  ("output_index", .ofNat leg.index), ("id", .string leg.relationshipId),
  ("prev_txid", optional .string leg.prevTxHash), ("prev_vout", optional .ofNat leg.prevOutputIndex)]

def sampleEdges (tx : Tx) : List Value :=
  tx.inputs.map (sampleEdge tx true) ++ tx.outputs.map (sampleEdge tx false)

theorem sampleFirst_canonical : Canonical .ok sampleFirst.tx where
  loaded := ⟨sampleEdges sampleFirst.tx, by decide, by decide +kernel⟩
  typed := ⟨by decide, by decide, by decide⟩
  spends := by decide

theorem sampleSecond_canonical : Canonical .ok sampleSecond.tx where
  loaded := ⟨sampleEdges sampleSecond.tx, by decide, by decide +kernel⟩
  typed := ⟨by decide, by decide, by decide⟩
  spends := by decide

def sampleOrigin : Hop where
  tx := sampleFirst.tx
  ins := inputsOf sampleFirst.tx sampleSeed
  out := sampleFirst.out
  spends := by decide

theorem sampleRouted : Routed .ok sampleSubject 2 true sampleSeed 1000 [sampleOrigin, sampleSecond] := by
  have hstart : Queued .ok sampleSubject 2 (.backward sampleSecond.tx sampleSecond.out []) :=
    .received sampleSecond_canonical rfl (by decide)
  have hnext : Queued .ok sampleSubject 2
      (.backward sampleFirst.tx sampleFirst.out [sampleSecond]) :=
    .previous ⟨0, by decide⟩ sampleFirst.out hstart (by decide) sampleFirst_canonical
  exact .received ⟨0, by decide⟩ sampleOrigin.spends hnext

def sampleRow : ClaimRow where
  networkId := Network.bitcoin.id
  claimId := "claim"
  address := sampleSeed
  claimKind := "label"
  entityId := "entity"
  entityName := "Entity"
  entityType := "fraud"
  addressRole := "deposit"
  confidence := 1
  riskLevel := 90
  isExposureSeed := 1
  seedCategory := "fraud"
  sourceId := "registry"
  sourceReference := "entry 1"
  evidenceRefs := ["report:1"]
  reviewStatus := "approved"
  reviewedBy := "analyst"
  reviewNote := "confirmed"
  validFromUnixMs := 500
  validToUnixMs := none
  revision := 3000
  createdAtUnixMs := 2000
  submittedBy := some "operator"
  caseId := none
  reviewedAtUnixMs := some 3000

def sampleId : String := String.ofList (List.replicate 64 'a')

def samplePath : Except String (Option Value) :=
  makePath .rational (fun _ => sampleId) sampleSubject true sampleOrigin [sampleSecond]
    (shown .rational sampleRow true) (snapshotOf sampleSeed sampleId) false 1000

def sampleData : Value := .object [
  ("network_id", .string Network.bitcoin.id), ("address", .string sampleSubject),
  ("source_snapshot", .object [("snapshot_id", .string "source")]),
  ("exposure_snapshot", frame sampleSubject "run" "snapshot" "source" [.string sampleId]),
  ("exposure_coverage", .object [("truncated", .bool false)])]

theorem sample_path_accepted : ∃ path, samplePath = .ok (some path) ∧
    bitcoinExposure .rational (finish .rational "run" false path) sampleData = .ok () := by
  have hmade : samplePath.toOption.join.any (fun p => p["score_eligible"] = .bool true ∧
      p["path_id"] = .string sampleId) = true := by decide +kernel
  obtain ⟨path, hpath, hfields⟩ := (Option.any_eq_true _ _).mp hmade
  have hfields := of_decide_eq_true hfields
  have hok : samplePath = .ok (some path) := by
    cases h : samplePath with
    | error e => rw [h] at hpath; cases hpath
    | ok found => rw [h] at hpath; exact congrArg _ hpath
  refine ⟨path, hok, ?_⟩
  exact eligible_path_accepted FloatOps.rational_exact (by decide) sampleRouted (by decide +kernel)
    ⟨rfl, rfl, by decide, by decide, rfl, by decide, _, rfl, by decide⟩ (by decide)
    (by decide) (by decide) (by decide +kernel) hok hfields.1
    ⟨rfl, rfl, rfl, rfl, rfl⟩ (by simp [hfields.2])

end AmlReal.Bitcoin.ExposureAgreement
