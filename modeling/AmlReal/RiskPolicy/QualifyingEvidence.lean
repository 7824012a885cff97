import AmlReal.Foundations.GreedyPairing
import AmlReal.RiskPolicy.Assess

/-! # What an assessment depends on

Each finding of the policy comes from the qualifying elements of a list: its
score is a maximum or an existence over them, so neither their order nor the
other elements matter. Forwarding is the exception. Its pairs are found greedily
in list order, which decides when three or four disjoint pairs exist. -/

namespace AmlReal.RiskPolicy.QualifyingEvidence
open AmlReal.Foundations.Floats AmlReal.Foundations.Json AmlReal.Foundations.GreedyPairing
open AmlReal.Warehouse.Values AmlReal.RiskPolicy.Evidence AmlReal.RiskPolicy.BitcoinExposure
open AmlReal.RiskPolicy.Assess

/-! ## Qualifying elements -/

section
variable (F : FloatOps) (fromStr : String → Option Value) (network : String) (data : Value)

/-- The approved labels: on TRON the approved claims of the active label. -/
def labels : List Value :=
  if network = "tron" then (claims data).filter (activeClaim data)
  else (entities data).filter (approvedEntity network data)

/-- The paths that no check of their loop turns away. -/
def scoredPaths : List Value :=
  (paths network data).filter fun path => (pathScore F network data path).isOk

def mixerEvents : List Value := (events network data).filter (mixerEvent F fromStr)

def txHash (edge : Value) : String := text edge["tx_hash"]

def names : EdgeNames := edgeNames (network = "tron")

/-- An outgoing edge that some receipt could be paired with. -/
def isPayment (names : EdgeNames) (address : String) (edge : Value) : Bool :=
  edge[names.time].asU64.isSome ∧ (rawAmount edge["amount"]).isSome ∧
    text edge[names.target] ≠ address ∧ txHash edge ≠ "" ∧ text edge[names.asset] ≠ ""

def fits (names : EdgeNames) (address : String) (incoming outgoing : Value) : Bool :=
  match receipt names address incoming with
  | some (amount, start) => follows names address incoming amount start outgoing
  | none => false

def receipts : List Value :=
  let address := text data["address"]
  (edgesAt address (names network).target (edges data)).filter fun edge =>
    (receipt (names network) address edge).isSome

def payments : List Value :=
  let address := text data["address"]
  (edgesAt address (names network).source (edges data)).filter (isPayment (names network) address)

/-- That many receipts can be paired with later payments, all transactions distinct. -/
def Pairable (n : Nat) : Prop :=
  text data["address"] ≠ "" ∧ ∃ pairs, pairs.length = n ∧
    Matching txHash txHash (fits (names network) (text data["address"])) (receipts network data)
      (payments network data) pairs

end

/-- Two inputs that agree on the fields read outside the lists. -/
structure SameScalars (network : String) (a b : Value) : Prop where
  address : a["address"] = b["address"]
  networkId : a["network_id"] = b["network_id"]
  transfers : transfers network a = transfers network b
  sourceSnapshot : a["source_snapshot"] = b["source_snapshot"]
  intelligenceSnapshot : a["intelligence_snapshot"] = b["intelligence_snapshot"]
  exposureSnapshot : a["exposure_snapshot"] = b["exposure_snapshot"]
  truncated : a.pointer ["exposure_coverage", "truncated"] =
    b.pointer ["exposure_coverage", "truncated"]
  activeLabel : activeLabel a = activeLabel b
  activeExchange : a.pointer ["intelligence", "active_exchange"] =
    b.pointer ["intelligence", "active_exchange"]

/-- The same qualifying elements, in any order and among any others. -/
structure SameEvidence (F : FloatOps) (fromStr : String → Option Value) (network : String)
    (a b : Value) : Prop where
  labels : (labels network a).Perm (labels network b)
  paths : (scoredPaths F network a).Perm (scoredPaths F network b)
  mixers : (mixerEvents F fromStr network a).Perm (mixerEvents F fromStr network b)
  receipts : (receipts network a).Perm (receipts network b)
  payments : (payments network a).Perm (payments network b)

/-! ## Loops that keep the best score -/

theorem raise_score (found : Finding) (score : ℚ) (evidence : Value) :
    (found.raise score evidence).score = max found.score score := by
  unfold Finding.raise
  split
  · rename_i h
    exact (max_eq_right (le_of_lt h)).symm
  · rename_i h
    exact (max_eq_left (not_lt.mp h)).symm

theorem foldl_raise_score (keep : Value → Bool) (score : Value → ℚ) (xs : List Value)
    (found : Finding) :
    (xs.foldl (fun found x => if keep x then found.raise (score x) x else found) found).score =
      ((xs.filter keep).map score).foldl max found.score := by
  induction xs generalizing found with
  | nil => rfl
  | cons x xs ih =>
    rw [List.foldl_cons, ih]
    by_cases hx : keep x = true
    · rw [if_pos hx, List.filter_cons_of_pos hx, raise_score]
      rfl
    · rw [if_neg hx, List.filter_cons_of_neg hx]

theorem foldl_last_score (keep : Value → Bool) (score : Value → ℚ) (xs : List Value)
    (found : Finding) :
    (xs.foldl (fun found x => if keep x then ⟨score x, x⟩ else found) found).score =
      ((xs.filter keep).getLast?.map score).getD found.score := by
  induction xs generalizing found with
  | nil => rfl
  | cons x xs ih =>
    rw [List.foldl_cons, ih]
    by_cases hx : keep x = true
    · rw [if_pos hx, List.filter_cons_of_pos hx]
      cases hrest : (xs.filter keep).getLast? with
      | none =>
        rw [List.getLast?_eq_none_iff.mp hrest]
        rfl
      | some y => rw [List.getLast?_cons, hrest]; rfl
    · rw [if_neg hx, List.filter_cons_of_neg hx]

theorem foldl_max_perm {xs ys : List ℚ} (h : xs.Perm ys) (start : ℚ) :
    xs.foldl max start = ys.foldl max start :=
  h.foldl_eq start

/-! ## The findings of two runs -/

section
variable {F : FloatOps} {fromStr : String → Option Value} {network : String} {a b : Value}

theorem approvedEntity_congr (h : SameScalars network a b) :
    approvedEntity network a = approvedEntity network b := by
  funext entity
  unfold approvedEntity
  rw [h.address, h.intelligenceSnapshot]

theorem identity_score (hlabels : (labels network a).Perm (labels network b))
    (hlast : network = "tron" →
      (labels network a).getLast?.map (labelScore F ·["risk_percent"]) =
        (labels network b).getLast?.map (labelScore F ·["risk_percent"])) :
    (identity F network a).score = (identity F network b).score := by
  unfold identity
  by_cases htron : network = "tron"
  · rw [if_pos htron, if_pos htron, foldl_last_score, foldl_last_score]
    have hl := hlast htron
    unfold labels at hl
    rw [if_pos htron, if_pos htron] at hl
    rw [hl]
  · rw [if_neg htron, if_neg htron, foldl_raise_score, foldl_raise_score]
    unfold labels at hlabels
    rw [if_neg htron, if_neg htron] at hlabels
    have hseeds := hlabels.filter fun entity => entity["is_exposure_seed"] = .bool true
    rw [List.filter_filter, List.filter_filter] at hseeds
    exact foldl_max_perm (hseeds.map _) 0

theorem bitcoinExposure_congr (h : SameScalars network a b) (path : Value) :
    bitcoinExposure F path a = bitcoinExposure F path b := by
  have htruncated : ∀ data : Value, (data.get "exposure_coverage").bind (·.get "truncated") =
      data.pointer ["exposure_coverage", "truncated"] := by
    intro data
    show _ = (data.get "exposure_coverage").bind fun v => (v.get "truncated").bind some
    simp
  have hframed : Framed path a = Framed path b := by
    unfold Framed
    simp only [htruncated, h.exposureSnapshot, h.networkId, h.address, h.sourceSnapshot,
      h.truncated]
  have hends : ∀ first last, Ends path a first last = Ends path b first last := by
    intro first last
    unfold Ends
    rw [h.address]
  unfold bitcoinExposure
  simp only [hframed, hends]

theorem pathScore_congr (h : SameScalars network a b) :
    pathScore F network a = pathScore F network b := by
  funext path
  unfold pathScore
  rw [bitcoinExposure_congr h]

theorem exposure_score_eq (data : Value) :
    (exposure F network data).1.score = ((scoredPaths F network data).map fun path =>
      (pathScore F network data path).toOption.getD 0).foldl max 0 := by
  have hloop : ∀ (xs : List Value) (state : Finding × List String),
      (xs.foldl (addPath F network data) state).1.score =
        ((xs.filter fun path => (pathScore F network data path).isOk).map fun path =>
          (pathScore F network data path).toOption.getD 0).foldl max state.1.score := by
    intro xs
    induction xs with
    | nil => intro state; rfl
    | cons x xs ih =>
      intro state
      rw [List.foldl_cons, ih, addPath]
      cases hx : pathScore F network data x with
      | ok score =>
        rw [List.filter_cons_of_pos (by rw [hx]; rfl), List.map_cons, List.foldl_cons, hx,
          raise_score]
        rfl
      | error limitation => rw [List.filter_cons_of_neg (by rw [hx]; exact Bool.false_ne_true)]
  exact hloop _ _

theorem exposure_score (h : SameScalars network a b)
    (hpaths : (scoredPaths F network a).Perm (scoredPaths F network b)) :
    (exposure F network a).1.score = (exposure F network b).1.score := by
  rw [exposure_score_eq, exposure_score_eq, pathScore_congr h]
  exact foldl_max_perm (hpaths.map _) 0

theorem mixer_eq_nil (data : Value) :
    mixer F fromStr network data = [] ↔ mixerEvents F fromStr network data = [] := by
  show ((mixerEvents F fromStr network data).take 10) = [] ↔ _
  rw [List.take_eq_nil_iff]
  simp

theorem knownService_eq (data : Value) :
    knownService network data = if network = "tron" then
        (data.pointer ["intelligence", "active_exchange"]).any (· ≠ .null)
      else (labels network data).any fun entity =>
        toAsciiLowercase (text entity["entity_type"]) ∈ ["exchange", "dex", "bridge", "custodian"] := by
  unfold knownService labels
  split
  · rfl
  · rw [List.any_filter]
    rfl

theorem knownService_congr (h : SameScalars network a b)
    (hlabels : (labels network a).Perm (labels network b)) :
    knownService network a = knownService network b := by
  rw [knownService_eq, knownService_eq, h.activeExchange]
  split
  · rfl
  · exact hlabels.any_eq

end

/-! ## Forwarding -/

/-- The loop's state stands for the pairs found. -/
structure Stands (names : EdgeNames) (state : Forwarding) (found : List (Value × Value)) : Prop where
  pairs : state.pairs = found.map fun p => pairValue names p.1 p.2
  used : ∀ key, key ∈ state.used ↔ key ∈ keys txHash txHash found

theorem isPayment_of_fits {names : EdgeNames} {address : String} {incoming outgoing : Value}
    (h : fits names address incoming outgoing = true) :
    isPayment names address outgoing = true ∧ txHash incoming ≠ txHash outgoing := by
  unfold fits at h
  split at h
  · rename_i amount start hreceipt
    have hasset : text incoming[names.asset] ≠ "" := by
      intro hempty
      unfold receipt at hreceipt
      cases hamount : rawAmount incoming["amount"] with
      | none => rw [hamount] at hreceipt; cases hreceipt
      | some n =>
        rw [hamount] at hreceipt
        change (if _ then none else _) = _ at hreceipt
        rw [if_pos (.inr (.inl hempty))] at hreceipt
        cases hreceipt
    unfold follows at h
    split at h
    · rename_i htime hamount
      obtain ⟨h₁, h₂, h₃, h₄, h₅, h₆⟩ := of_decide_eq_true h
      refine ⟨?_, h₅⟩
      unfold isPayment
      rw [htime, hamount]
      exact decide_eq_true ⟨rfl, rfl, h₁, h₂, h₃ ▸ hasset⟩
    · cases h
  · cases h

theorem step_skip {names : EdgeNames} {address : String} {outs : List Value} {state : Forwarding}
    {incoming : Value} (h : (receipt names address incoming).isSome = false) :
    state.step names address outs incoming = state := by
  unfold Forwarding.step
  rw [Option.isSome_eq_false_iff, Option.isNone_iff_eq_none] at h
  rw [h]

theorem step_stands {names : EdgeNames} {address : String} {outs : List Value}
    {state : Forwarding} {found : List (Value × Value)} {incoming : Value}
    (h : Stands names state found) (hreceipt : (receipt names address incoming).isSome = true) :
    Stands names (state.step names address outs incoming)
      (pick txHash txHash (fits names address) (outs.filter (isPayment names address)) found
        incoming) := by
  obtain ⟨⟨amount, start⟩, hsome⟩ := Option.isSome_iff_exists.mp hreceipt
  have hfits : ∀ outgoing, fits names address incoming outgoing =
      follows names address incoming amount start outgoing := by
    intro outgoing
    unfold fits
    rw [hsome]
  have hfind : ((outs.filter (isPayment names address)).find? fun outgoing =>
        fits names address incoming outgoing && txHash outgoing ∉ keys txHash txHash found) =
      outs.find? fun outgoing => follows names address incoming amount start outgoing &&
        text outgoing["tx_hash"] ∉ state.used := by
    rw [List.find?_filter]
    congr 1
    funext outgoing
    have hkeys : (txHash outgoing ∉ keys txHash txHash found) =
        (text outgoing["tx_hash"] ∉ state.used) := by
      rw [h.used]
      rfl
    rw [← hfits]
    simp only [hkeys]
    by_cases hfit : fits names address incoming outgoing = true
    · simp [(isPayment_of_fits hfit).1]
    · simp [hfit]
  unfold Forwarding.step pick
  rw [hsome, hfind]
  by_cases hused : text incoming["tx_hash"] ∈ state.used
  · have hkey : txHash incoming ∈ keys txHash txHash found := (h.used _).mp hused
    simp only [hused, hkey, if_true]
    exact h
  · have hkey : txHash incoming ∉ keys txHash txHash found := fun hk => hused ((h.used _).mpr hk)
    simp only [hused, hkey, if_false]
    generalize List.find? _ outs = choice
    cases choice with
    | none => exact h
    | some outgoing =>
      constructor
      · simp [h.pairs]
      · intro key
        rw [keys_append, List.mem_append, List.mem_cons, List.mem_cons, h.used]
        show _ ↔ _ ∨ key ∈ [txHash incoming, txHash outgoing]
        rw [List.mem_cons, List.mem_singleton]
        tauto

theorem run_stands {names : EdgeNames} {address : String} {outs ins : List Value}
    {state : Forwarding} {found : List (Value × Value)} (h : Stands names state found)
    (hlimit : found.length < 10) :
    Stands names (Forwarding.run names address outs ins state)
      (greedy txHash txHash (fits names address) 10 (outs.filter (isPayment names address))
        (ins.filter fun edge => (receipt names address edge).isSome) found) := by
  induction ins generalizing state found with
  | nil => exact h
  | cons incoming ins ih =>
    have hlength : ∀ {state : Forwarding} {found : List (Value × Value)},
        Stands names state found → state.pairs.length = found.length := by
      intro state found hs
      rw [hs.pairs, List.length_map]
    unfold Forwarding.run
    by_cases hreceipt : (receipt names address incoming).isSome = true
    · have hstep : Stands names (state.step names address outs incoming) _ := step_stands h hreceipt
      rw [List.filter_cons_of_pos (p := fun edge => (receipt names address edge).isSome) hreceipt,
        hlength hstep]
      unfold greedy
      split
      · exact hstep
      · exact ih hstep (by omega)
    · -- an edge that is no receipt leaves the state, which is below the limit
      have hskip : state.step names address outs incoming = state :=
        step_skip (Bool.eq_false_iff.mpr hreceipt)
      rw [List.filter_cons_of_neg (p := fun edge => (receipt names address edge).isSome) hreceipt,
        hskip, if_neg (by rw [hlength h]; omega)]
      exact ih h hlimit

def greedyPairs (network : String) (data : Value) : List (Value × Value) :=
  greedy txHash txHash (fits (names network) (text data["address"])) 10 (payments network data)
    (receipts network data) []

theorem length_forwardingPairs (network : String) (data : Value) :
    (forwardingPairs network data).length =
      if network = "bitcoin" ∨ text data["address"] = "" then 0
      else (greedyPairs network data).length := by
  unfold forwardingPairs
  by_cases hbitcoin : network = "bitcoin"
  · rw [if_pos hbitcoin, if_pos (.inl hbitcoin)]
    rfl
  · rw [if_neg hbitcoin]
    unfold passThrough
    by_cases haddress : text data["address"] = ""
    · simp only [haddress, if_true, or_true, List.length_nil]
    · have hstart : Stands (names network) ⟨[], []⟩ [] := ⟨rfl, by simp [keys]⟩
      have hrun : Stands (names network) (Forwarding.run (names network) (text data["address"])
          (edgesAt (text data["address"]) (names network).source (edges data))
          (edgesAt (text data["address"]) (names network).target (edges data)) ⟨[], []⟩)
          (greedyPairs network data) := run_stands hstart (by decide)
      have hpairs := congrArg List.length hrun.pairs
      rw [List.length_map] at hpairs
      simp only [hbitcoin, haddress, or_self, if_false]
      exact hpairs

theorem pairable_of_greedy {network : String} {data : Value} (haddress : text data["address"] ≠ "")
    {n : Nat} (h : n ≤ (greedyPairs network data).length) : Pairable network data n := by
  have hne : ∀ incoming outgoing, fits (names network) (text data["address"]) incoming outgoing = true →
      txHash incoming ≠ txHash outgoing := fun _ _ hfits => (isPayment_of_fits hfits).2
  have hmatching : Matching txHash txHash (fits (names network) (text data["address"]))
      (receipts network data) (payments network data) (greedyPairs network data) :=
    greedy_matching hne 10 _ (List.Subset.refl _) .nil
  refine ⟨haddress, (greedyPairs network data).take n, ?_, hmatching.take n⟩
  rw [List.length_take]
  omega

theorem greedy_of_pairable {network : String} {data : Value} (h : Pairable network data 5) :
    3 ≤ (greedyPairs network data).length := by
  obtain ⟨_, pairs, hlength, hmatching⟩ := h
  by_cases hlimit : (greedyPairs network data).length < 10
  · have hhalf := hmatching.length_le_greedy hlimit
    change pairs.length ≤ 2 * (greedyPairs network data).length at hhalf
    omega
  · omega

theorem Pairable.congr {network : String} {a b : Value} {n : Nat} (h : Pairable network a n)
    (haddress : a["address"] = b["address"])
    (hreceipts : (receipts network a).Perm (receipts network b))
    (hpayments : (payments network a).Perm (payments network b)) : Pairable network b n := by
  obtain ⟨hempty, pairs, hlength, hmatching⟩ := h
  rw [haddress] at hempty hmatching
  exact ⟨hempty, pairs, hlength, hmatching.mono hreceipts.subset hpayments.subset⟩

/-- The forwarding signal is raised. -/
def forwarding (network : String) (data : Value) : Bool :=
  3 ≤ (forwardingPairs network data).length && !knownService network data

theorem forwarding_iff (network : String) (data : Value) :
    forwarding network data = true ↔ network ≠ "bitcoin" ∧ text data["address"] ≠ "" ∧
      knownService network data = false ∧ 3 ≤ (greedyPairs network data).length := by
  unfold forwarding
  rw [length_forwardingPairs, Bool.and_eq_true, decide_eq_true_eq, Bool.not_eq_true']
  split
  · rename_i h
    constructor
    · rintro ⟨h, _⟩
      omega
    · rintro ⟨hbitcoin, haddress, _⟩
      exact absurd h (by tauto)
  · rename_i h
    rw [not_or] at h
    tauto

/-- The order of the lists does not decide about forwarding, or it is the same. -/
def OrderSettled (network : String) (a b : Value) : Prop :=
  ¬ Pairable network a 3 ∨ Pairable network a 5 ∨
    (receipts network a = receipts network b ∧ payments network a = payments network b)

theorem forwarding_congr {network : String} {a b : Value} {F : FloatOps}
    {fromStr : String → Option Value} (hscalars : SameScalars network a b)
    (h : SameEvidence F fromStr network a b) (horder : OrderSettled network a b) :
    forwarding network a = forwarding network b := by
  have hservice := knownService_congr hscalars h.labels
  rw [Bool.eq_iff_iff, forwarding_iff, forwarding_iff, ← hservice, ← hscalars.address]
  -- the pairing reaches three on one side exactly when it does on the other
  suffices hgreedy : text a["address"] ≠ "" →
      (3 ≤ (greedyPairs network a).length ↔ 3 ≤ (greedyPairs network b).length) by tauto
  intro haddress
  have haddress' : text b["address"] ≠ "" := by rwa [← hscalars.address]
  rcases horder with hnone | hfive | ⟨hreceipts, hpayments⟩
  · constructor
    · intro hlong
      exact absurd (pairable_of_greedy haddress hlong) hnone
    · intro hlong
      have hb := pairable_of_greedy haddress' hlong
      exact absurd (hb.congr hscalars.address.symm h.receipts.symm h.payments.symm) hnone
  · have hfive' := hfive.congr hscalars.address h.receipts h.payments
    exact ⟨fun _ => greedy_of_pairable hfive', fun _ => greedy_of_pairable hfive⟩
  · unfold greedyPairs
    rw [hreceipts, hpayments, hscalars.address]

/-! ## The assessment -/

section
variable (F : FloatOps) (fromStr : String → Option Value) (network : String) (data : Value)

/-- The types and contributions of the signals. -/
def outline : List (Value × ℚ) :=
  (signals F fromStr network data).map fun s => (s["signal_type"], contribution s)

theorem outline_eq : outline F fromStr network data =
    (if (identity F network data).score > 0 then
      [(.string "APPROVED_RISK_LABEL", (identity F network data).score)] else []) ++
    (if (exposure F network data).1.score > 0 then
      [(.string "ILLICIT_SEED_EXPOSURE", (exposure F network data).1.score)] else []) ++
    (if mixer F fromStr network data ≠ [] then [(.string "MIXER_INTERACTION", mixerWeight)]
      else []) ++
    (if forwarding network data then [(.string "RAPID_SAME_ASSET_FORWARDING", forwardingWeight)]
      else []) := by
  have hforwarding : (3 ≤ (forwardingPairs network data).length ∧
      knownService network data = false) = (forwarding network data = true) := by
    unfold forwarding
    simp
  have hif : ∀ (c : Prop) [Decidable c] (s : Value),
      (if c then [s] else []).map (fun s => (s["signal_type"], contribution s)) =
        if c then [(s["signal_type"], contribution s)] else [] := by
    intro c _ s
    split <;> rfl
  unfold outline signals
  simp only [List.map_append, hif, hforwarding]
  rfl

theorem outline_pos : ∀ entry ∈ outline F fromStr network data, 0 < entry.2 := by
  intro entry hentry
  rw [outline_eq] at hentry
  simp only [List.mem_append] at hentry
  rcases hentry with ((h | h) | h) | h
  · split at h
    · rename_i hpos
      obtain rfl := List.mem_singleton.mp h
      exact hpos
    · cases h
  · split at h
    · rename_i hpos
      obtain rfl := List.mem_singleton.mp h
      exact hpos
    · cases h
  · split at h
    · obtain rfl := List.mem_singleton.mp h
      decide +kernel
    · cases h
  · split at h
    · obtain rfl := List.mem_singleton.mp h
      decide +kernel
    · cases h

def outlineScore (entries : List (Value × ℚ)) : ℚ :=
  min (((entries.insertionSort fun a b => b.2 ≤ a.2).map Prod.snd).foldl F.add 0) 100

theorem score_eq : score F fromStr network data = outlineScore F (outline F fromStr network data) := by
  have hsort := List.map_insertionSort (fun a b => contribution b ≤ contribution a)
    (fun a b : Value × ℚ => b.2 ≤ a.2) (fun s => (s["signal_type"], contribution s))
    (signals F fromStr network data) (fun _ _ _ _ => Iff.rfl)
  unfold score sortedSignals outlineScore outline
  rw [← hsort, List.map_map]
  rfl

theorem available_eq : available F fromStr network data =
    decide (outline F fromStr network data ≠ [] ∨
      (network ≠ "bitcoin" ∧ 3 ≤ transfers network data)) := by
  unfold available outline
  simp only [ne_eq, List.map_eq_nil_iff]

theorem mem_signalTypes (kind : Value) :
    kind ∈ signalTypes (assess F fromStr network data) ↔
      ∃ entry ∈ outline F fromStr network data, entry.1 = kind := by
  have hsignals : array ((assess F fromStr network data).get "signals") =
      sortedSignals F fromStr network data := rfl
  unfold signalTypes outline
  rw [hsignals, List.mem_map]
  unfold sortedSignals
  simp only [List.mem_insertionSort, List.mem_map]
  constructor
  · rintro ⟨s, hs, rfl⟩
    exact ⟨_, ⟨s, hs, rfl⟩, rfl⟩
  · rintro ⟨_, ⟨s, hs, rfl⟩, rfl⟩
    exact ⟨s, hs, rfl⟩

theorem mem_signalTypes_forwarding :
    .string "RAPID_SAME_ASSET_FORWARDING" ∈ signalTypes (assess F fromStr network data) ↔
      forwarding network data = true := by
  rw [mem_signalTypes, outline_eq]
  simp only [List.mem_append]
  constructor
  · rintro ⟨entry, ((h | h) | h) | h, hkind⟩
    · split at h <;> simp at h
      rw [h] at hkind
      exact absurd (Value.string.inj hkind) (by decide)
    · split at h <;> simp at h
      rw [h] at hkind
      exact absurd (Value.string.inj hkind) (by decide)
    · split at h <;> simp at h
      rw [h] at hkind
      exact absurd (Value.string.inj hkind) (by decide)
    · split at h
      · assumption
      · cases h
  · intro h
    refine ⟨(.string "RAPID_SAME_ASSET_FORWARDING", forwardingWeight), .inr ?_, rfl⟩
    rw [if_pos h]
    exact List.mem_singleton_self _

end

theorem outline_congr {F : FloatOps} {fromStr : String → Option Value} {network : String}
    {a b : Value} (hscalars : SameScalars network a b) (h : SameEvidence F fromStr network a b)
    (hlast : network = "tron" →
      (labels network a).getLast?.map (labelScore F ·["risk_percent"]) =
        (labels network b).getLast?.map (labelScore F ·["risk_percent"]))
    (horder : OrderSettled network a b) :
    outline F fromStr network a = outline F fromStr network b := by
  have hmixer : mixer F fromStr network a ≠ [] ↔ mixer F fromStr network b ≠ [] := by
    rw [ne_eq, ne_eq, mixer_eq_nil, mixer_eq_nil]
    have hmixers := h.mixers
    constructor
    · intro hne hnil
      rw [hnil] at hmixers
      exact hne hmixers.eq_nil
    · intro hne hnil
      rw [hnil] at hmixers
      exact hne hmixers.symm.eq_nil
  rw [outline_eq, outline_eq, identity_score h.labels hlast, exposure_score hscalars h.paths,
    forwarding_congr hscalars h horder]
  simp only [hmixer]

theorem level_eq {F : FloatOps} {fromStr : String → Option Value} {network : String} {a b : Value}
    (htransfers : transfers network a = transfers network b)
    (houtline : outline F fromStr network a = outline F fromStr network b) :
    riskScore F fromStr network a = riskScore F fromStr network b ∧
      level F fromStr network a = level F fromStr network b := by
  have havailable : available F fromStr network a = available F fromStr network b := by
    rw [available_eq, available_eq, houtline, htransfers]
  have hscore : score F fromStr network a = score F fromStr network b := by
    rw [score_eq, score_eq, houtline]
  unfold riskScore level
  rw [havailable, hscore]
  exact ⟨rfl, rfl⟩

/-! ## The range of the score -/

section
variable {F : FloatOps} {rnd : ℚ → ℚ} (hF : F.Rounded rnd)
include hF

theorem foldl_add_nonneg (xs : List ℚ) (hpos : ∀ x ∈ xs, 0 ≤ x) (start : ℚ) (hstart : 0 ≤ start) :
    0 ≤ xs.foldl F.add start := by
  induction xs generalizing start with
  | nil => exact hstart
  | cons x xs ih =>
    rw [List.foldl_cons]
    refine ih (fun y hy => hpos y (List.mem_cons_of_mem _ hy)) _ ?_
    rw [hF.add]
    have hzero : rnd 0 = 0 := by simpa using hF.integer 0 (by decide)
    rw [← hzero]
    exact hF.mono (add_nonneg hstart (hpos x List.mem_cons_self))

theorem score_range (fromStr : String → Option Value) (network : String) (data : Value) :
    0 ≤ score F fromStr network data ∧ score F fromStr network data ≤ 100 := by
  rw [score_eq]
  unfold outlineScore
  refine ⟨le_min (foldl_add_nonneg hF _ ?_ 0 le_rfl) (by decide), min_le_right _ _⟩
  intro x hx
  obtain ⟨entry, hentry, rfl⟩ := List.mem_map.mp hx
  rw [List.mem_insertionSort] at hentry
  exact le_of_lt (outline_pos F fromStr network data entry hentry)

omit hF in
theorem roundAway_range {x : ℚ} (h : 0 ≤ x ∧ x ≤ 1000) : 0 ≤ roundAway x ∧ roundAway x ≤ 1000 := by
  unfold roundAway
  rw [if_pos h.1]
  constructor
  · exact_mod_cast Int.floor_nonneg.mpr (by linarith)
  · have hfloor : ⌊x + 1 / 2⌋ ≤ 1000 := by
      rw [Int.floor_le_iff]
      push_cast
      linarith
    exact_mod_cast hfloor

theorem riskScore_range (fromStr : String → Option Value) (network : String) (data : Value) :
    riskScore F fromStr network data = .null ∨
      ∃ x, riskScore F fromStr network data = float F x ∧ 0 ≤ x ∧ x ≤ 100 := by
  have hzero : rnd 0 = 0 := by simpa using hF.integer 0 (by decide)
  have hhundred : rnd 100 = 100 := by simpa using hF.integer 100 (by decide)
  have hthousand : rnd 1000 = 1000 := by simpa using hF.integer 1000 (by decide)
  obtain ⟨hlow, hhigh⟩ := score_range hF fromStr network data
  have htimes : 0 ≤ F.mul (score F fromStr network data) 10 ∧
      F.mul (score F fromStr network data) 10 ≤ 1000 := by
    rw [hF.mul]
    exact ⟨hzero ▸ hF.mono (by linarith), hthousand ▸ hF.mono (by linarith)⟩
  obtain ⟨hlow, hhigh⟩ := roundAway_range htimes
  unfold riskScore
  split
  · refine .inr ⟨_, rfl, ?_⟩
    rw [hF.div]
    exact ⟨hzero ▸ hF.mono (by linarith), hhundred ▸ hF.mono (by linarith)⟩
  · exact .inl rfl

end

/-- The score, the level and the types of the signals come from the qualifying
evidence; list order has a say only where it decides how many pairs are found. -/
theorem risk_of_qualifying_evidence {F : FloatOps} {rnd : ℚ → ℚ} (hF : F.Rounded rnd)
    (fromStr : String → Option Value) (network : String) :
    (∀ a b, SameScalars network a b → SameEvidence F fromStr network a b →
      (network = "tron" → (labels network a).getLast?.map (labelScore F ·["risk_percent"]) =
        (labels network b).getLast?.map (labelScore F ·["risk_percent"])) →
      OrderSettled network a b →
      (assess F fromStr network a)["risk_score"] = (assess F fromStr network b)["risk_score"] ∧
      (assess F fromStr network a)["risk_level"] = (assess F fromStr network b)["risk_level"] ∧
      ∀ kind, kind ∈ signalTypes (assess F fromStr network a) ↔
        kind ∈ signalTypes (assess F fromStr network b)) ∧
    ∀ data,
      ((assess F fromStr network data)["risk_score"] = .null ∨
        ∃ x, (assess F fromStr network data)["risk_score"] = float F x ∧ 0 ≤ x ∧ x ≤ 100) ∧
      (.string "RAPID_SAME_ASSET_FORWARDING" ∈ signalTypes (assess F fromStr network data) ↔
        network ≠ "bitcoin" ∧ text data["address"] ≠ "" ∧ knownService network data = false ∧
          3 ≤ (greedyPairs network data).length) ∧
      (text data["address"] ≠ "" → 3 ≤ (greedyPairs network data).length →
        Pairable network data 3) ∧
      (Pairable network data 5 → 3 ≤ (greedyPairs network data).length) := by
  refine ⟨?_, fun data => ⟨?_, ?_, ?_, greedy_of_pairable⟩⟩
  · intro a b hscalars hevidence hlast horder
    have houtline := outline_congr hscalars hevidence hlast horder
    obtain ⟨hscore, hlevel⟩ := level_eq hscalars.transfers houtline
    refine ⟨hscore, congrArg Value.string hlevel, ?_⟩
    intro kind
    rw [mem_signalTypes, mem_signalTypes, houtline]
  · exact riskScore_range hF fromStr network data
  · rw [mem_signalTypes_forwarding, forwarding_iff]
  · intro haddress hlong
    exact pairable_of_greedy haddress hlong

/-! ## List order decides -/

def sampleEdge (tx source target amount : String) (time : Nat) : Value := .object [
  ("tx_hash", .string tx), ("from_address", .string source), ("to_address", .string target),
  ("asset_id", .string "asset"), ("amount", .string amount),
  ("block_timestamp_unix_ms", .ofNat time)]

def sampleWallet (edges : List Value) : Value := .object [
  ("address", .string "wallet"), ("fingerprint", .object [("transfer_count", .ofNat 6)]),
  ("graph", .object [("edges", .array edges)])]

def sampleReceipts : List Value := [
  sampleEdge "in-0" "sender" "wallet" "1000" 1000001,
  sampleEdge "in-1" "sender" "wallet" "1000" 1000000,
  sampleEdge "in-2" "sender" "wallet" "1000" 3000000]

/-- The payment that only the first receipt can take. -/
def lateSample : Value := sampleEdge "out-0" "wallet" "receiver" "950" 1600001

def earlySample : Value := sampleEdge "out-1" "wallet" "receiver" "950" 1000100

def lastSample : Value := sampleEdge "out-2" "wallet" "receiver" "950" 3000100

def lateFirst : Value := sampleWallet (sampleReceipts ++ [lateSample, earlySample, lastSample])

def earlyFirst : Value := sampleWallet (sampleReceipts ++ [earlySample, lateSample, lastSample])

/-- Where the earlier payment is listed first, the first receipt takes it and the
second has nothing left. -/
theorem order_decides : ¬ ∀ a b, SameScalars "ethereum" a b →
    SameEvidence .rational (fun _ => none) "ethereum" a b →
    (assess .rational (fun _ => none) "ethereum" a)["risk_level"] =
      (assess .rational (fun _ => none) "ethereum" b)["risk_level"] := by
  intro h
  have hscalars : SameScalars "ethereum" lateFirst earlyFirst :=
    ⟨rfl, rfl, rfl, rfl, rfl, rfl, rfl, rfl, rfl⟩
  have hevidence : SameEvidence .rational (fun _ => none) "ethereum" lateFirst earlyFirst :=
    ⟨.refl _, .refl _, .refl _, by decide +kernel, by decide +kernel⟩
  have hlate : (assess .rational (fun _ => none) "ethereum" lateFirst)["risk_level"] =
    .string "LOW" := by decide +kernel
  have hearly : (assess .rational (fun _ => none) "ethereum" earlyFirst)["risk_level"] =
    .string "NO_SIGNALS" := by decide +kernel
  have hsame := h lateFirst earlyFirst hscalars hevidence
  rw [hlate, hearly] at hsame
  exact absurd (Value.string.inj hsame) (by decide)

theorem lateFirst_forwards :
    .string "RAPID_SAME_ASSET_FORWARDING" ∈
        signalTypes (assess .rational (fun _ => none) "ethereum" lateFirst) ∧
      Pairable "ethereum" lateFirst 3 := by
  obtain ⟨-, hall⟩ := risk_of_qualifying_evidence FloatOps.rational_rounded (fun _ => none)
    "ethereum"
  obtain ⟨-, hforwarding, hpairable, -⟩ := hall lateFirst
  have hgreedy : 3 ≤ (greedyPairs "ethereum" lateFirst).length := by decide +kernel
  exact ⟨hforwarding.mpr ⟨by decide, by decide, by decide +kernel, hgreedy⟩,
    hpairable (by decide) hgreedy⟩

end AmlReal.RiskPolicy.QualifyingEvidence
