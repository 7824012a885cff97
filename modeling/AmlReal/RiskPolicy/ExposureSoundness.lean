import Mathlib.Data.List.Chain
import AmlReal.RiskPolicy.BitcoinExposure

/-! # What an accepted exposure path proves

The verifier never underflows. What it accepts is a chain of hops from the seed
to the assessed address or back, and its amounts bound every flow of the
selected satoshis along the chain. -/

namespace AmlReal.RiskPolicy.ExposureSoundness
open AmlReal.Foundations.Checks AmlReal.Foundations.Floats AmlReal.Foundations.Json
open AmlReal.Foundations.IntervalPropagation
open AmlReal.Warehouse.Values AmlReal.RiskPolicy.Evidence AmlReal.RiskPolicy.BitcoinExposure
open AmlReal.Bitcoin.Bounds

/-! ## No underflow -/

section
variable {α β : Type}

def Safe (r : Except Stop α) : Prop := r ≠ .error .underflow

theorem safe_ok (a : α) : Safe (.ok a) := by intro h; cases h

theorem safe_context (value : Option α) : Safe (context value .rejected) := by
  intro h
  cases value with
  | none => cases h
  | some a => cases h

theorem safe_ensure (c : Prop) [Decidable c] : Safe (ensure c .rejected) := by
  intro h
  unfold ensure at h
  split at h <;> cases h

theorem Safe.bind {r : Except Stop α} {f : α → Except Stop β} (hr : Safe r)
    (hf : ∀ a, r = .ok a → Safe (f a)) : Safe (r >>= f) := by
  cases r with
  | error e =>
    intro h
    obtain rfl := Except.error.inj h
    exact hr rfl
  | ok a => exact hf a rfl

theorem safe_foldlM {f : β → α → Except Stop β} (hf : ∀ b a, Safe (f b a)) (xs : List α) (b : β) :
    Safe (xs.foldlM f b) := by
  induction xs generalizing b with
  | nil => exact safe_ok b
  | cons x xs ih =>
    rw [List.foldlM_cons]
    exact (hf b x).bind fun next _ => ih next

end

theorem safe_add (sel : Selection) (input : Value) : Safe (sel.add input) := by
  refine (safe_context _).bind fun _ _ => (safe_context _).bind fun _ _ => ?_
  refine (safe_context _).bind fun _ _ => (safe_ensure _).bind fun _ _ => safe_ok _

theorem safe_enter (check : Check) (hop : Value) (inputs : List Value) (selected : Nat) :
    Safe (check.enter hop inputs selected) := by
  unfold Check.enter
  cases check.previous with
  | none => exact (safe_ensure _).bind fun _ _ => safe_ok _
  | some previous =>
    refine (safe_ensure _).bind fun _ _ => (safe_context _).bind fun _ _ => ?_
    exact (safe_context _).bind fun _ _ => (safe_ensure _).bind fun _ _ => safe_ok _

theorem safe_subU64 {a b : Nat} (h : b ≤ a) : Safe (subU64 a b) := by
  rw [subU64_eq h]
  exact safe_ok _

theorem safe_step (check : Check) (hop step : Value) : Safe (check.step hop step) := by
  refine (safe_context _).bind fun inputs _ => (safe_ensure _).bind fun _ _ => ?_
  refine (safe_foldlM safe_add _ _).bind fun sel _ => (safe_enter check hop inputs sel.selected).bind fun bounds _ => ?_
  refine (safe_context _).bind fun total _ => (safe_context _).bind fun output _ => ?_
  refine (safe_ensure _).bind fun _ hbounds => (safe_context _).bind fun fee _ => ?_
  -- the guard on the output stands before both subtractions
  have hsub := safe_subU64 (ensure_ok hbounds).2.2
  refine hsub.bind fun _ _ => (safe_ensure _).bind fun _ _ => (safe_ensure _).bind fun _ _ => ?_
  exact hsub.bind fun _ _ => (safe_ensure _).bind fun _ _ => safe_ok _

theorem safe_pair (check : Check) (hop : Value × Value) : Safe (check.step hop.1 hop.2) :=
  safe_step check hop.1 hop.2

theorem safe_validity (seed edge : Value) : Safe (checkValidity seed edge) := by
  refine (safe_context _).bind fun _ _ => (safe_context _).bind fun _ _ => ?_
  refine (safe_ensure _).bind fun _ _ => ?_
  split
  · exact safe_ok _
  · exact (safe_context _).bind fun _ _ => safe_ensure _

theorem safe_strength (F : FloatOps) (path last : Value) (low hops : Nat) :
    Safe (checkStrength F path last low hops) := by
  refine (safe_context _).bind fun _ _ => (safe_context _).bind fun _ _ => ?_
  refine (safe_context _).bind fun _ _ => (safe_context _).bind fun _ _ => ?_
  exact (safe_ensure _).bind fun _ _ => safe_ensure _

theorem safe_bitcoinExposure (F : FloatOps) (path data : Value) :
    Safe (bitcoinExposure F path data) := by
  refine (safe_ensure _).bind fun _ _ => (safe_ensure _).bind fun _ _ => ?_
  refine (safe_context _).bind fun hops _ => (safe_context _).bind fun steps _ => ?_
  refine (safe_ensure _).bind fun _ _ => ?_
  refine (safe_foldlM safe_pair _ _).bind fun check _ => ?_
  refine (safe_ensure _).bind fun _ _ => (safe_context _).bind fun first _ => ?_
  refine (safe_context _).bind fun last _ => (safe_ensure _).bind fun _ _ => ?_
  exact (safe_validity _ _).bind fun _ _ => safe_strength F path last check.low hops.length

/-! ## One hop -/

def inputValue (input : Value) : Nat := input["value"].asU64.getD 0

def outpoint (input : Value) : String × Nat :=
  (text input["prev_tx_hash"], input["prev_output_index"].asU64.getD 0)

theorem exact_le {value : Value} {n : Nat} (h : exact value = some n) : n ≤ supply := by
  unfold exact at h
  simp only [Option.bind_eq_bind, Option.bind_eq_some_iff] at h
  obtain ⟨s, _, m, _, h⟩ := h
  split at h
  · rename_i hle; exact Option.some.inj h ▸ hle.1
  · cases h

theorem add_ok {sel next : Selection} {input : Value} (h : sel.add input = .ok next) :
    (input["value"].asU64.isSome ∧ input["prev_output_index"].asU64.isSome) ∧
      next.selected = sel.selected + inputValue input ∧
      outpoint input ∉ sel.seen ∧ next.seen = outpoint input :: sel.seen := by
  obtain ⟨value, hvalue, h⟩ := bind_ok h
  obtain ⟨selected, hselected, h⟩ := bind_ok h
  obtain ⟨index, hindex, h⟩ := bind_ok h
  obtain ⟨_, hnew, h⟩ := bind_ok h
  cases h
  have hvalue := context_ok hvalue
  have hindex := context_ok hindex
  have houtpoint : outpoint input = (text input["prev_tx_hash"], index) := by
    unfold outpoint; rw [hindex]; rfl
  refine ⟨⟨by rw [hvalue]; rfl, by rw [hindex]; rfl⟩, ?_, ?_, ?_⟩
  · unfold inputValue
    rw [hvalue]
    exact (checkedAdd_eq_some (context_ok hselected)).1
  · rw [houtpoint]; exact ensure_ok hnew
  · rw [houtpoint]

theorem selection_ok {inputs : List Value} {sel final : Selection}
    (h : inputs.foldlM Selection.add sel = .ok final) :
    (∀ i ∈ inputs, i["value"].asU64.isSome ∧ i["prev_output_index"].asU64.isSome) ∧
      final.selected = sel.selected + (inputs.map inputValue).sum ∧
      (inputs.map outpoint).Nodup ∧ ∀ i ∈ inputs, outpoint i ∉ sel.seen := by
  induction inputs generalizing sel with
  | nil => cases h; simp
  | cons input rest ih =>
    rw [List.foldlM_cons] at h
    obtain ⟨next, hadd, h⟩ := bind_ok h
    obtain ⟨hsome, hselected, hnew, hseen⟩ := add_ok hadd
    obtain ⟨hrest, hsum, hnodup, hapart⟩ := ih h
    rw [hseen] at hapart
    refine ⟨?_, ?_, ?_, ?_⟩
    · intro i hi
      rcases List.mem_cons.mp hi with rfl | hi
      · exact hsome
      · exact hrest i hi
    · rw [hsum, hselected, List.map_cons, List.sum_cons, Nat.add_assoc]
    · rw [List.map_cons, List.nodup_cons]
      refine ⟨fun hmem => ?_, hnodup⟩
      obtain ⟨i, hi, heq⟩ := List.mem_map.mp hmem
      exact hapart i hi (by simp [heq])
    · intro i hi
      rcases List.mem_cons.mp hi with rfl | hi
      · exact hnew
      · exact fun hmem => hapart i hi (List.mem_cons_of_mem _ hmem)

/-- The hop spends exactly the output that the previous one follows, later. -/
def Spends (previous hop : Value) : Prop :=
  ∃ input, hop["inputs"] = .array [input] ∧ input["prev_tx_hash"] = previous["tx_hash"] ∧
    input["prev_output_index"] = previous["output"]["index"] ∧
    input["value"] = previous["output"]["value"] ∧
    input["subject"] = previous["output"]["subject"] ∧
    ∃ a b, position previous = some a ∧ position hop = some b ∧ Before a b

/-- The total and the followed output that a hop declares. -/
def declared (hop : Value × Value) : Option Amounts := do
  let total ← exact hop.2["total_input_sats"]
  let output ← hop.1["output"]["value"].asU64
  some ⟨total, output⟩

/-- What a hop that passed has established. -/
structure Passed (check : Check) (hop step : Value) (next : Check) where
  inputs : List Value
  sel : Selection
  bounds : Nat × Nat
  amounts : Amounts
  inputs_eq : hop["inputs"] = .array inputs
  nonempty : inputs ≠ []
  selection : inputs.foldlM Selection.add ⟨0, [], []⟩ = .ok sel
  enter : check.enter hop inputs sel.selected = .ok bounds
  declares : declared (hop, step) = some amounts
  covers : bounds.2 ≤ amounts.total ∧ amounts.output ≤ amounts.total ∧ amounts.total ≤ supply
  previous : next.previous = some hop
  low : next.low = bounds.1 - (amounts.total - amounts.output)
  high : next.high = min bounds.2 amounts.output

theorem step_passed {check next : Check} {hop step : Value}
    (h : check.step hop step = .ok next) : Nonempty (Passed check hop step next) := by
  obtain ⟨inputs, hinputs, h⟩ := bind_ok h
  obtain ⟨_, hshape, h⟩ := bind_ok h
  obtain ⟨sel, hsel, h⟩ := bind_ok h
  obtain ⟨bounds, henter, h⟩ := bind_ok h
  obtain ⟨total, htotal, h⟩ := bind_ok h
  obtain ⟨output, houtput, h⟩ := bind_ok h
  obtain ⟨_, hguard, h⟩ := bind_ok h
  obtain ⟨fee, _, h⟩ := bind_ok h
  obtain ⟨_, _, h⟩ := bind_ok h
  obtain ⟨_, _, h⟩ := bind_ok h
  obtain ⟨_, _, h⟩ := bind_ok h
  obtain ⟨others, hothers, h⟩ := bind_ok h
  obtain ⟨_, _, h⟩ := bind_ok h
  cases h
  have hguard := ensure_ok hguard
  have htotal := context_ok htotal
  have houtput := context_ok houtput
  have hothers' : others = total - output := by
    rw [subU64_eq hguard.2.2] at hothers
    exact (Except.ok.inj hothers).symm
  exact ⟨{
    inputs, sel, bounds
    amounts := ⟨total, output⟩
    inputs_eq := Value.asArray_eq_some (context_ok hinputs)
    nonempty := (ensure_ok hshape).1
    selection := hsel
    enter := henter
    declares := by unfold declared; rw [htotal, houtput]; rfl
    covers := ⟨hguard.2.1.trans hguard.1, hguard.2.2, exact_le htotal⟩
    previous := rfl
    low := by rw [hothers']
    high := rfl }⟩

theorem enter_first {hop : Value} {inputs : List Value} {selected : Nat} {check : Check}
    {bounds : Nat × Nat} (hfirst : check.previous = none)
    (h : check.enter hop inputs selected = .ok bounds) : bounds = (selected, selected) ∧
      ∀ i ∈ inputs, i["subject"] = (inputs.headD .null)["subject"] := by
  unfold Check.enter at h
  rw [hfirst] at h
  obtain ⟨_, hsubject, h⟩ := bind_ok h
  exact ⟨(Except.ok.inj h).symm, ensure_ok hsubject⟩

theorem enter_later {previous hop : Value} {inputs : List Value} {selected : Nat} {check : Check}
    {bounds : Nat × Nat} (hlater : check.previous = some previous)
    (hinputs : hop["inputs"] = .array inputs)
    (h : check.enter hop inputs selected = .ok bounds) :
    bounds = (check.low, check.high) ∧ Spends previous hop := by
  unfold Check.enter at h
  rw [hlater] at h
  obtain ⟨_, hspends, h⟩ := bind_ok h
  obtain ⟨before, hbefore, h⟩ := bind_ok h
  obtain ⟨here, hhere, h⟩ := bind_ok h
  obtain ⟨_, horder, h⟩ := bind_ok h
  refine ⟨(Except.ok.inj h).symm, ?_⟩
  obtain ⟨input, hhead, hlength, hhash, hindex, hvalue, hsubject⟩ := ensure_ok hspends
  have hsingle : inputs = [input] := by
    obtain ⟨other, rfl⟩ := List.length_eq_one_iff.mp hlength
    cases hhead; rfl
  exact ⟨input, hsingle ▸ hinputs, hhash, hindex, hvalue, hsubject, before, here,
    context_ok hbefore, context_ok hhere, ensure_ok horder⟩

/-- The bounds of a hop that passed are those of the allocation. -/
theorem Passed.allocates {check next : Check} {hop step : Value}
    (p : Passed check hop step next) (horder : p.bounds.1 ≤ p.bounds.2) :
    next.low ≤ next.high ∧ allocate p.bounds.1 p.bounds.2 p.amounts.total p.amounts.output =
      .ok (next.low, next.high) := by
  obtain ⟨hhigh, houtput, htotal⟩ := p.covers
  have halloc := allocate_eq horder hhigh houtput htotal
  refine ⟨?_, by rw [halloc, p.low, p.high]⟩
  rw [p.low, p.high]
  omega

/-! ## The chain of hops -/

/-- The hops after one that the check has passed spend one another, and their
declared amounts carry the bounds on. -/
theorem later_hops {pairs : List (Value × Value)} {check final : Check} {previous : Value}
    (hprevious : check.previous = some previous) (horder : check.low ≤ check.high)
    (h : pairs.foldlM (fun check hop => check.step hop.1 hop.2) check = .ok final) :
    (previous :: pairs.map Prod.fst).IsChain Spends ∧
      ∃ amounts, pairs.map declared = amounts.map some ∧
        allocateAll amounts (check.low, check.high) = .ok (final.low, final.high) := by
  induction pairs generalizing check previous with
  | nil => cases h; exact ⟨.singleton _, [], rfl, rfl⟩
  | cons pair rest ih =>
    rw [List.foldlM_cons] at h
    obtain ⟨next, hstep, h⟩ := bind_ok h
    obtain ⟨p⟩ := step_passed hstep
    obtain ⟨hbounds, hspends⟩ := enter_later hprevious p.inputs_eq p.enter
    obtain ⟨hnext, halloc⟩ := p.allocates (by rw [hbounds]; exact horder)
    obtain ⟨hchain, amounts, hdeclared, hall⟩ := ih p.previous hnext h
    refine ⟨.cons_cons hspends hchain, p.amounts :: amounts, ?_, ?_⟩
    · rw [List.map_cons, List.map_cons, hdeclared]
      exact congrArg (· :: _) p.declares
    · unfold allocateAll at hall ⊢
      rw [hbounds] at halloc
      rw [List.foldlM_cons, halloc]
      exact hall

/-- What the hops of an accepted path are, whatever made them. -/
structure Chain (hops steps : List Value) (low high : Nat) where
  amounts : List Amounts
  first : Value
  inputs : List Value
  spends : hops.IsChain Spends
  declares : (hops.zip steps).map declared = amounts.map some
  first_eq : hops.head? = some first
  inputs_eq : first["inputs"] = .array inputs
  nonempty : inputs ≠ []
  values : ∀ i ∈ inputs, i["value"].asU64.isSome ∧ i["prev_output_index"].asU64.isSome
  distinct : (inputs.map outpoint).Nodup
  subject : ∀ i ∈ inputs, i["subject"] = (inputs.headD .null)["subject"]
  flow : allocateAll amounts ((inputs.map inputValue).sum, (inputs.map inputValue).sum) =
    .ok (low, high)

theorem chain_of_hops {hops steps : List Value} {check : Check} (hlength : steps.length = hops.length)
    (hhops : hops ≠ []) (h : checkHops hops steps = .ok check) :
    Nonempty (Chain hops steps check.low check.high) := by
  obtain ⟨hop, hops, rfl⟩ := List.exists_cons_of_ne_nil hhops
  obtain ⟨step, steps, rfl⟩ := List.exists_cons_of_length_eq_add_one hlength
  unfold checkHops at h
  rw [List.zip_cons_cons, List.foldlM_cons] at h
  obtain ⟨next, hstep, h⟩ := bind_ok h
  obtain ⟨p⟩ := step_passed hstep
  obtain ⟨hbounds, hsubject⟩ := enter_first rfl p.enter
  obtain ⟨hvalues, hselected, hdistinct, _⟩ := selection_ok p.selection
  rw [Nat.zero_add] at hselected
  rw [hselected] at hbounds
  obtain ⟨hnext, halloc⟩ := p.allocates (by rw [hbounds])
  obtain ⟨hspends, amounts, hdeclared, hall⟩ := later_hops p.previous hnext h
  have hmap : (hops.zip steps).map Prod.fst = hops :=
    List.map_fst_zip (by simpa using hlength.ge)
  rw [hmap] at hspends
  exact ⟨{
    amounts := p.amounts :: amounts
    first := hop
    inputs := p.inputs
    spends := hspends
    declares := by
      rw [List.zip_cons_cons, List.map_cons, List.map_cons, hdeclared]
      exact congrArg (· :: _) p.declares
    first_eq := rfl
    inputs_eq := p.inputs_eq
    nonempty := p.nonempty
    values := hvalues
    distinct := hdistinct
    subject := hsubject
    flow := by
      unfold allocateAll at hall ⊢
      rw [hbounds] at halloc
      rw [List.foldlM_cons, halloc]
      exact hall }⟩

/-! ## The verdict -/

/-- What acceptance of a path says about it. -/
structure Verified (path data : Value) where
  hops : List Value
  steps : List Value
  amount : Nat
  maximum : Nat
  last : Value
  chain : Chain hops steps amount maximum
  hops_eq : path["hops"] = .array hops
  steps_eq : path["allocation"]["steps"] = .array steps
  length : 1 ≤ hops.length ∧ hops.length ≤ 5 ∧ steps.length = hops.length
  last_eq : hops.getLast? = some last
  ends : Ends path data chain.first last
  amount_raw : exact path["amount_raw"] = some amount
  maximum_sats : exact path["allocation"]["maximum_sats"] = some maximum
  positive : 0 < amount
  /-- Whatever the assignment, this much of the selected value reaches the end. -/
  bounds : ∀ x, Feasible chain.amounts (chain.inputs.map inputValue).sum x →
    amount ≤ x ∧ x ≤ maximum

/-- The check never underflows, and what it accepts is verified. -/
theorem bitcoin_exposure_sound (F : FloatOps) (path data : Value) :
    bitcoinExposure F path data ≠ .error .underflow ∧
      (bitcoinExposure F path data = .ok () → Nonempty (Verified path data)) := by
  refine ⟨safe_bitcoinExposure F path data, fun h => ?_⟩
  obtain ⟨_, _, h⟩ := bind_ok h
  obtain ⟨_, _, h⟩ := bind_ok h
  obtain ⟨hops, hhops, h⟩ := bind_ok h
  obtain ⟨steps, hsteps, h⟩ := bind_ok h
  obtain ⟨_, hshape, h⟩ := bind_ok h
  obtain ⟨check, hcheck, h⟩ := bind_ok h
  obtain ⟨_, htotal, h⟩ := bind_ok h
  obtain ⟨first, hfirst, h⟩ := bind_ok h
  obtain ⟨last, hlast, h⟩ := bind_ok h
  obtain ⟨_, hends, _⟩ := bind_ok h
  obtain ⟨hone, hfive, hlength, _, _⟩ := ensure_ok hshape
  obtain ⟨hlow, _, _, hamount, _, hmaximum⟩ := ensure_ok htotal
  obtain ⟨chain⟩ := chain_of_hops hlength (List.ne_nil_of_length_pos hone) hcheck
  have hsame : chain.first = first :=
    Option.some.inj (chain.first_eq.symm.trans (context_ok hfirst))
  exact ⟨{
    hops, steps, last, chain
    amount := check.low
    maximum := check.high
    hops_eq := Value.asArray_eq_some (context_ok hhops)
    steps_eq := Value.asArray_eq_some (context_ok hsteps)
    length := ⟨hone, hfive, hlength⟩
    last_eq := context_ok hlast
    ends := hsame ▸ ensure_ok hends
    amount_raw := hamount
    maximum_sats := hmaximum
    positive := Nat.pos_of_ne_zero hlow
    bounds := fun x hx => (allocateAll_exact chain.flow).of_point
      (fun _ hle hge => Nat.le_antisymm hge hle) x |>.mp hx }⟩

/-! A path of two hops from a seed: of the 100 satoshis that the seed spends,
the subject holds between 50 and 70. -/

def sampleLeg (subject : String) (value : Nat) (id : String) (spent : Option (String × Nat)) :
    Value := .object [
  ("subject", .string subject), ("value", .ofNat value), ("relationship_id", .string id),
  ("index", .ofNat 0), ("prev_tx_hash", (spent.map (.string ·.1)).getD .null),
  ("prev_output_index", (spent.map (.ofNat ·.2)).getD .null)]

def sampleHop (hash : String) (block : Nat) (input output : Value) : Value := .object [
  ("tx_hash", .string hash), ("block_number", .ofNat block), ("transaction_index", .ofNat 1),
  ("timestamp_unix_ms", .ofNat 1000), ("inputs", .array [input]), ("output", output)]

def sampleStep (lower upper total output fee lo hi : String) : Value := .object [
  ("lower_input_sats", .string lower), ("upper_input_sats", .string upper),
  ("total_input_sats", .string total), ("output_sats", .string output), ("fee_sats", .string fee),
  ("lower_output_sats", .string lo), ("upper_output_sats", .string hi)]

def sampleClaim : Value := .object [
  ("review_status", .string "APPROVED"), ("source_id", .string "registry"),
  ("evidence_refs", .array [.string "report:1"]), ("is_exposure_seed", .bool true),
  ("network_id", .string Network.bitcoin.id), ("address", .string "seed"), ("active", .bool true),
  ("reviewed_by", .string "analyst"), ("reviewed_at_unix_ms", .ofNat 900),
  ("valid_from_unix_ms", .ofNat 500), ("valid_to_unix_ms", .null),
  ("confidence", .ofNat 1), ("risk_level", .ofNat 100)]

def sampleSnapshot : Value := .object [
  ("contract", .string "bitcoin_intelligence_v1"), ("network_id", .string Network.bitcoin.id),
  ("address", .string "seed"), ("snapshot_id", .string (String.ofList (List.replicate 64 'a')))]

def samplePath : Value := .object [
  ("network_id", .string Network.bitcoin.id), ("path_id", .string "path"),
  ("run_id", .string "run"), ("subject_id", .string "subject"), ("seed_address", .string "seed"),
  ("seed_claim", sampleClaim), ("seed_snapshot", sampleSnapshot),
  ("direction", .string "RECEIVED_FROM_SEED"), ("hop_count", .ofNat 2),
  ("asset_id", .string "native:BTC"), ("amount_raw", .string "50"),
  ("amount_share", .number (.other "0.625" (some (5 / 8)))),
  ("exposure_score", .number (.other "0.40625" (some (13 / 32)))), ("score_eligible", .bool true),
  ("attribution_method", method), ("fund_continuity_claimed", .bool false),
  ("ownership_claimed", .bool false), ("time_weight", .ofNat 1),
  ("tx_hashes", .array [.string "first", .string "second"]),
  ("relationship_ids", .array [.string "a", .string "b", .string "c", .string "d"]),
  ("hops", .array [
    sampleHop "first" 5 (sampleLeg "seed" 100 "a" (some ("origin", 0)))
      (sampleLeg "middle" 70 "b" none),
    sampleHop "second" 6 (sampleLeg "middle" 70 "c" (some ("first", 0)))
      (sampleLeg "subject" 80 "d" none)]),
  ("allocation", .object [("method", method), ("minimum_sats", .string "50"),
    ("maximum_sats", .string "70"), ("steps", .array [
      sampleStep "100" "100" "100" "70" "5" "70" "70",
      sampleStep "70" "70" "100" "80" "20" "50" "70"])])]

def sampleData : Value := .object [
  ("network_id", .string Network.bitcoin.id), ("address", .string "subject"),
  ("source_snapshot", .object [("snapshot_id", .string "source")]),
  ("exposure_snapshot", .object [
    ("contract", .string "bitcoin_exposure_v1"), ("current", .bool true),
    ("network_id", .string Network.bitcoin.id), ("address", .string "subject"),
    ("source_snapshot_id", .string "source"), ("run_id", .string "run"),
    ("path_ids", .array [.string "path"])]),
  ("exposure_coverage", .object [("truncated", .bool false)])]

theorem sample_verified : Nonempty (Verified samplePath sampleData) :=
  (bitcoin_exposure_sound .rational samplePath sampleData).2 (by decide +kernel)

end AmlReal.RiskPolicy.ExposureSoundness
