import AmlReal.Bitcoin.Unspent

/-! # The query for unspent outputs against replay

Over the rows of a chain of canonical blocks the query selects the outputs that
replaying the chain leaves, except where the last transaction to create an
outpoint also spends it. No chain has such a transaction whose ids commit to
what is spent. -/

namespace AmlReal.Bitcoin.UnspentReplay
open AmlReal.Foundations.Checks AmlReal.Foundations.Json AmlReal.Foundations.KeyedLog
open AmlReal.Bitcoin.Extract AmlReal.Bitcoin.Unspent

/-- A block with the evidence stored for it. -/
structure CanonicalBlock (scripts : ScriptLibrary) where
  value : Value
  commitId : String
  resolved : List (String × ScriptOutput)
  evidence : Evidence
  extracted : extract scripts value commitId resolved = .ok evidence

structure Chain (scripts : ScriptLibrary) where
  blocks : List (CanonicalBlock scripts)
  ascending : blocks.Pairwise fun a b => heightOf a.value < heightOf b.value

section
variable {scripts : ScriptLibrary} (c : Chain scripts)

/-- The rows `OUTPUTS` selects. -/
def Chain.outputs : List Output := c.blocks.flatMap fun b => b.evidence.outputs

/-- The rows `INPUTS` selects. -/
def Chain.inputs : List Input := c.blocks.flatMap fun b => b.evidence.inputs

def Chain.movements : List Movement := c.blocks.flatMap fun b => movementsOf scripts b.value

/-- The unspent outputs a node has after the blocks of the chain. -/
def Chain.unspent : Outpoint → Option Coin := replay (log c.movements)

def Chain.Agree : Prop :=
  ∀ point coin, (∃ o ∈ utxos c.outputs c.inputs, outputPoint o = point ∧ outputCoin o = coin) ↔
    c.unspent point = some coin

/-- The transaction creates an outpoint. -/
def Movement.Creates (m : Movement) (point : Outpoint) : Prop := ∃ coin, (point, coin) ∈ m.creates

/-- Some transaction creates an outpoint that it spends itself, and no later
transaction creates or spends it. -/
def Chain.RecreatesItsSpend : Prop :=
  ∃ m ∈ c.movements, ∃ point ∈ m.spends, Movement.Creates m point ∧
    ∀ later ∈ c.movements, m.position < later.position →
      point ∉ later.spends ∧ ¬ Movement.Creates later point

/-! ## The order of the chain -/

theorem zipIdx_ascending {α : Type} (xs : List α) : xs.zipIdx.Pairwise fun a b => a.2 < b.2 := by
  have h : (xs.zipIdx.map Prod.snd).Pairwise (· < ·) := by
    rw [List.zipIdx_map_snd]; exact List.pairwise_lt_range'
  exact List.pairwise_map.mp h

theorem movement_position {height : Nat} {tx : Value × Nat} :
    (movement scripts height tx).position = toLex (height, tx.2) := rfl

theorem movements_position {block : Value} {m : Movement} (h : m ∈ movementsOf scripts block) :
    ∃ index, m.position = toLex (heightOf block, index) := by
  obtain ⟨tx, _, rfl⟩ := List.mem_map.mp h
  exact ⟨tx.2, rfl⟩

theorem positions_ascending :
    c.movements.Pairwise fun a b => a.position < b.position := by
  refine List.pairwise_flatMap.mpr ⟨fun b _ => ?_, ?_⟩
  · refine List.pairwise_map.mpr ((zipIdx_ascending _).imp fun hlt => ?_)
    exact Prod.Lex.toLex_lt_toLex.mpr (Or.inr ⟨rfl, hlt⟩)
  · refine c.ascending.imp fun hlt m hm m' hm' => ?_
    obtain ⟨_, hposition⟩ := movements_position hm
    obtain ⟨_, hposition'⟩ := movements_position hm'
    rw [hposition, hposition']
    exact Prod.Lex.toLex_lt_toLex.mpr (Or.inl hlt)

theorem creates_of_movement {height : Nat} {tx : Value × Nat} {created : Outpoint × Coin}
    (h : created ∈ (movement scripts height tx).creates) :
    created.1.1 = (movement scripts height tx).txid ∧
      created.2.position = (movement scripts height tx).position := by
  obtain ⟨vout, _, hvout⟩ := List.mem_filterMap.mp h
  obtain ⟨output, _, rfl⟩ := Option.map_eq_some_iff.mp hvout
  exact ⟨rfl, rfl⟩

theorem mem_movements {m : Movement} (h : m ∈ c.movements) :
    ∃ height tx, m = movement scripts height tx := by
  obtain ⟨b, _, hm⟩ := List.mem_flatMap.mp h
  obtain ⟨tx, _, rfl⟩ := List.mem_map.mp hm
  exact ⟨heightOf b.value, tx, rfl⟩

variable {c}

theorem created_txid {m : Movement} (hm : m ∈ c.movements) {point : Outpoint} {coin : Coin}
    (h : (point, coin) ∈ m.creates) : point.1 = m.txid := by
  obtain ⟨height, tx, rfl⟩ := mem_movements c hm
  exact (creates_of_movement h).1

theorem created_position {m : Movement} (hm : m ∈ c.movements) {point : Outpoint} {coin : Coin}
    (h : (point, coin) ∈ m.creates) : coin.position = m.position := by
  obtain ⟨height, tx, rfl⟩ := mem_movements c hm
  exact (creates_of_movement h).2

theorem creates_distinct {height : Nat} {tx : Value × Nat} :
    (movement scripts height tx).creates.Pairwise fun a b => a.1 ≠ b.1 := by
  refine List.pairwise_filterMap.mpr ((zipIdx_ascending _).imp fun hlt a ha b hb he => ?_)
  obtain ⟨_, _, rfl⟩ := Option.map_eq_some_iff.mp ha
  obtain ⟨_, _, rfl⟩ := Option.map_eq_some_iff.mp hb
  exact absurd (congrArg Prod.snd he) (Nat.ne_of_lt hlt)

theorem eq_of_position {a b : Movement} (ha : a ∈ c.movements) (hb : b ∈ c.movements)
    (h : a.position = b.position) : a = b := by
  have hnodup : (c.movements.map Movement.position).Nodup :=
    List.pairwise_map.mpr ((positions_ascending c).imp ne_of_lt)
  exact List.inj_on_of_nodup_map hnodup ha hb h

/-! ## The log of the chain -/

theorem mem_entries {m : Movement} {e : Entry Outpoint Position Coin} :
    e ∈ m.entries ↔ (∃ point ∈ m.spends, e = ⟨point, m.position, none⟩) ∨
      ∃ created ∈ m.creates, e = ⟨created.1, m.position, some created.2⟩ := by
  unfold Movement.entries
  rw [List.mem_append, List.mem_map, List.mem_map]
  simp only [eq_comm]

theorem entry_stamp {m : Movement} {e : Entry Outpoint Position Coin} (h : e ∈ m.entries) :
    e.stamp = m.position := by
  rcases mem_entries.mp h with ⟨_, _, rfl⟩ | ⟨_, _, rfl⟩ <;> rfl

theorem entries_ordered {height : Nat} {tx : Value × Nat} :
    Ordered (movement scripts height tx).entries := by
  refine List.pairwise_append.mpr ⟨?_, ?_, ?_⟩
  · exact List.pairwise_map.mpr (List.pairwise_of_forall fun _ _ _ => Or.inr ⟨rfl, rfl⟩)
  · exact List.pairwise_map.mpr (creates_distinct.imp fun hne hkey => absurd hkey hne)
  · intro e he f hf _
    obtain ⟨point, _, rfl⟩ := List.mem_map.mp he
    obtain ⟨created, _, rfl⟩ := List.mem_map.mp hf
    exact Or.inr ⟨rfl, rfl⟩

theorem log_ordered : Ordered (log c.movements) := by
  refine List.pairwise_flatMap.mpr ⟨fun m hm => ?_, ?_⟩
  · obtain ⟨height, tx, rfl⟩ := mem_movements c hm
    exact entries_ordered
  · refine (positions_ascending c).imp fun hlt e he f hf _ => Or.inl ?_
    rwa [entry_stamp he, entry_stamp hf]

/-! ## Both accounts in terms of the transactions -/

theorem exists_output {p : Outpoint × Coin} :
    (∃ o ∈ c.outputs, outputEntry o = p) ↔ ∃ m ∈ c.movements, p ∈ m.creates := by
  have h : c.outputs.map outputEntry = c.movements.flatMap Movement.creates := by
    unfold Chain.outputs Chain.movements
    rw [List.map_flatMap, List.flatMap_assoc]
    congr 1
    funext b
    exact (extract_ok b.extracted).1
  rw [← List.mem_map, h, List.mem_flatMap]

theorem exists_input {p : Outpoint × Position} :
    (∃ i ∈ c.inputs, inputEntry i = p) ↔ ∃ m ∈ c.movements, p.1 ∈ m.spends ∧ m.position = p.2 := by
  have h : c.inputs.map inputEntry =
      c.movements.flatMap fun m => m.spends.map fun point => (point, m.position) := by
    unfold Chain.inputs Chain.movements
    rw [List.map_flatMap, List.flatMap_assoc]
    congr 1
    funext b
    exact (extract_ok b.extracted).2
  rw [← List.mem_map, h, List.mem_flatMap]
  obtain ⟨point, position⟩ := p
  simp [and_left_comm]

/-- No transaction creates the outpoint after a position. -/
def Chain.LastCreated (c : Chain scripts) (point : Outpoint) (position : Position) : Prop :=
  ∀ m ∈ c.movements, Movement.Creates m point → m.position ≤ position

theorem last_occurrence_iff {o : Output} :
    LastOccurrence c.outputs o ↔ c.LastCreated (outputPoint o) (outputPosition o) := by
  constructor
  · rintro h m hm ⟨coin, hcoin⟩
    obtain ⟨other, hother, hentry⟩ := exists_output.mpr ⟨m, hm, hcoin⟩
    obtain ⟨hpoint, hcoin'⟩ := Prod.mk.inj hentry
    rw [← created_position hm hcoin, ← hcoin']
    exact h other hother hpoint
  · intro h other hother hpoint
    obtain ⟨m, hm, hcreated⟩ := exists_output.mp ⟨other, hother, rfl⟩
    have hposition : outputPosition other = m.position := created_position hm hcreated
    rw [hposition]
    exact h m hm ⟨outputCoin other, hpoint ▸ hcreated⟩

theorem spent_before_iff {point : Outpoint} {position : Position} :
    (∀ i ∈ c.inputs, inputPoint i = point → inputPosition i < position) ↔
      ∀ m ∈ c.movements, point ∈ m.spends → m.position < position := by
  constructor
  · intro h m hm hspends
    obtain ⟨i, hi, hentry⟩ := (exists_input (p := (point, m.position))).mpr ⟨m, hm, hspends, rfl⟩
    obtain ⟨hpoint, hposition⟩ := Prod.mk.inj hentry
    rw [← hposition]
    exact h i hi hpoint
  · intro h i hi hpoint
    obtain ⟨m, hm, hspends, hposition⟩ := exists_input.mp ⟨i, hi, rfl⟩
    have hposition : m.position = inputPosition i := hposition
    rw [← hposition]
    exact h m hm (hpoint ▸ hspends)

theorem query_iff {point : Outpoint} {coin : Coin} :
    (∃ o ∈ utxos c.outputs c.inputs, outputPoint o = point ∧ outputCoin o = coin) ↔
      ∃ m ∈ c.movements, (point, coin) ∈ m.creates ∧ c.LastCreated point m.position ∧
        ∀ m' ∈ c.movements, point ∈ m'.spends → m'.position < m.position := by
  constructor
  · rintro ⟨o, ho, rfl, rfl⟩
    obtain ⟨hmem, hlast, hspent⟩ := mem_utxos ho
    obtain ⟨m, hm, hcreated⟩ := exists_output.mp ⟨o, hmem, rfl⟩
    have hposition : outputPosition o = m.position := created_position hm hcreated
    rw [hposition] at hspent
    refine ⟨m, hm, hcreated, ?_, spent_before_iff.mp hspent⟩
    rw [← hposition]
    exact last_occurrence_iff.mp hlast
  · rintro ⟨m, hm, hcreated, hlast, hspent⟩
    obtain ⟨o, ho, hentry⟩ := exists_output.mpr ⟨m, hm, hcreated⟩
    obtain ⟨hpoint, hcoin⟩ := Prod.mk.inj hentry
    have hposition : outputPosition o = m.position := by
      rw [← created_position hm hcreated, ← hcoin]; rfl
    rw [← hposition] at hlast hspent
    obtain ⟨r, hr, hrpoint, hrposition⟩ := exists_utxo ho
      (last_occurrence_iff.mpr (hpoint ▸ hlast)) (spent_before_iff.mpr (hpoint ▸ hspent))
    refine ⟨r, hr, hrpoint.trans hpoint, ?_⟩
    -- the row of the query and the created output are puts of one transaction
    obtain ⟨m', hm', hcreated'⟩ := exists_output.mp ⟨r, (mem_utxos hr).1, rfl⟩
    have hsame : m' = m := eq_of_position hm' hm (by
      rw [← created_position hm' hcreated', ← hposition, ← hrposition]; rfl)
    subst hsame
    have hunique := log_ordered.put_unique
      (List.mem_flatMap.mpr ⟨m', hm, mem_entries.mpr (Or.inr ⟨_, hcreated', rfl⟩)⟩)
      (List.mem_flatMap.mpr ⟨m', hm, mem_entries.mpr (Or.inr ⟨_, hcreated, rfl⟩)⟩)
      (hrpoint.trans hpoint) rfl (by simp) (by simp)
    simpa [outputEntry] using congrArg Entry.value hunique

theorem replay_iff {point : Outpoint} {coin : Coin} :
    c.unspent point = some coin ↔
      ∃ m ∈ c.movements, (point, coin) ∈ m.creates ∧ c.LastCreated point m.position ∧
        ∀ m' ∈ c.movements, point ∈ m'.spends → m'.position ≤ m.position := by
  unfold Chain.unspent
  rw [replay_eq_some log_ordered]
  constructor
  · rintro ⟨e, he, rfl, hvalue, hmax⟩
    obtain ⟨m, hm, hentry⟩ := List.mem_flatMap.mp he
    rcases mem_entries.mp hentry with ⟨_, _, rfl⟩ | ⟨created, hcreated, rfl⟩
    · cases hvalue
    · obtain rfl := Option.some.inj hvalue
      refine ⟨m, hm, hcreated, ?_, fun m' hm' hspends => ?_⟩
      · rintro m' hm' ⟨coin, hcoin⟩
        exact hmax ⟨created.1, m'.position, some coin⟩ (List.mem_flatMap.mpr
          ⟨m', hm', mem_entries.mpr (Or.inr ⟨_, hcoin, rfl⟩)⟩) rfl
      · exact hmax ⟨created.1, m'.position, none⟩ (List.mem_flatMap.mpr
          ⟨m', hm', mem_entries.mpr (Or.inl ⟨_, hspends, rfl⟩)⟩) rfl
  · rintro ⟨m, hm, hcreated, hlast, hspent⟩
    refine ⟨⟨point, m.position, some coin⟩, List.mem_flatMap.mpr
      ⟨m, hm, mem_entries.mpr (Or.inr ⟨_, hcreated, rfl⟩)⟩, rfl, rfl, fun f hf hkey => ?_⟩
    obtain ⟨m', hm', hentry⟩ := List.mem_flatMap.mp hf
    rcases mem_entries.mp hentry with ⟨p, hp, rfl⟩ | ⟨created, hcreated', rfl⟩
    · exact hspent m' hm' (hkey ▸ hp)
    · exact hlast m' hm' ⟨created.2, hkey ▸ hcreated'⟩

/-! ## Agreement -/

theorem agree_iff : c.Agree ↔ ¬ c.RecreatesItsSpend := by
  constructor
  · rintro hagree ⟨m, hm, point, hspends, ⟨coin, hcreated⟩, hlater⟩
    have hreplay : c.unspent point = some coin :=
      replay_iff.mpr ⟨m, hm, hcreated,
        fun m' hm' hcreates => not_lt.mp fun hlt => (hlater m' hm' hlt).2 hcreates,
        fun m' hm' hspends' => not_lt.mp fun hlt => (hlater m' hm' hlt).1 hspends'⟩
    obtain ⟨m', hm', hcreated', _, hspent⟩ := query_iff.mp ((hagree point coin).mpr hreplay)
    exact (hlater m' hm' (hspent m hm hspends)).2 ⟨coin, hcreated'⟩
  · intro hnone point coin
    rw [query_iff, replay_iff]
    constructor
    · rintro ⟨m, hm, hcreated, hlast, hspent⟩
      exact ⟨m, hm, hcreated, hlast, fun m' hm' hspends => le_of_lt (hspent m' hm' hspends)⟩
    · rintro ⟨m, hm, hcreated, hlast, hspent⟩
      refine ⟨m, hm, hcreated, hlast, fun m' hm' hspends => ?_⟩
      refine lt_of_le_of_ne (hspent m' hm' hspends) fun heq => ?_
      obtain rfl := eq_of_position hm' hm heq
      exact hnone ⟨m', hm, point, hspends, ⟨coin, hcreated⟩, fun later hl hlt =>
        ⟨fun h => absurd (hspent later hl h) (not_le_of_gt hlt),
          fun h => absurd (hlast later hl h) (not_le_of_gt hlt)⟩⟩

/-- The first transaction of an id would have to spend an output of that id
before there is one, and every later one spends the same outputs. -/
theorem spends_no_own (hexisting : SpendsExisting c.movements)
    (hcommits : CommitsToSpends c.movements) (before after : List Movement) (m : Movement)
    (hsplit : c.movements = before ++ m :: after) (point : Outpoint) (hown : point.1 = m.txid) :
    point ∉ m.spends := by
  intro hspends
  induction hlen : before.length using Nat.strong_induction_on generalizing before after m point with
  | _ n ih =>
    obtain ⟨coin, hcoin⟩ := hexisting.exists hsplit hspends
    obtain ⟨e, he, rfl, hvalue⟩ := replay_some_mem hcoin
    obtain ⟨earlier, hearlier, hentry⟩ := List.mem_flatMap.mp he
    have hmem : earlier ∈ c.movements := by rw [hsplit]; simp [hearlier]
    have hm : m ∈ c.movements := by rw [hsplit]; simp
    rcases mem_entries.mp hentry with ⟨_, _, rfl⟩ | ⟨created, hcreated, rfl⟩
    · cases hvalue
    · have htxid : earlier.txid = m.txid := (created_txid hmem hcreated).symm.trans hown
      obtain ⟨first, rest, rfl⟩ := List.append_of_mem hearlier
      have hspends' : created.1 ∈ earlier.spends := by
        rw [hcommits earlier hmem m hm htxid]; exact hspends
      refine ih first.length ?_ first (rest ++ m :: after) earlier ?_ created.1
        (created_txid hmem hcreated) hspends' rfl
      · rw [← hlen]; simp
      · rw [hsplit]; simp

theorem agree_of_commits (hexisting : SpendsExisting c.movements)
    (hcommits : CommitsToSpends c.movements) : c.Agree := by
  rw [agree_iff]
  rintro ⟨m, hm, point, hspends, ⟨coin, hcreated⟩, _⟩
  obtain ⟨before, after, hsplit⟩ := List.append_of_mem hm
  exact spends_no_own hexisting hcommits before after m hsplit point (created_txid hm hcreated) hspends

/-- The query selects what replay leaves, exactly when no transaction is the last
to create an outpoint that it spends itself. Where ids commit to what their
transactions spend, and only existing outputs are spent, there is none. -/
theorem utxos_replay (c : Chain scripts) :
    (c.Agree ↔ ¬ c.RecreatesItsSpend) ∧
      (SpendsExisting c.movements → CommitsToSpends c.movements → c.Agree) :=
  ⟨agree_iff, agree_of_commits⟩

end

/-! ## Two chains -/

def sampleScripts : ScriptLibrary where
  addressOf hex := if hex = "76a914000000000000000000000000000000000000000088ac"
    then some (some "1111111111111111111114oLvT2") else none
  amount text := if text = "50" then some 5000000000 else none

def sampleHash (c : Char) : String := String.ofList (List.replicate 64 c)

def sampleVout : Value :=
  .object [("n", .ofNat 0), ("value", .ofNat 50), ("scriptPubKey", .object
    [("hex", .string "76a914000000000000000000000000000000000000000088ac"),
      ("type", .string "pubkeyhash")])]

def sampleCoinbase (id : Char) : Value :=
  .object [("txid", .string (sampleHash id)), ("vin", .array [.object [("coinbase", .string "00")]]),
    ("vout", .array [sampleVout])]

def sampleSpend (id spent : Char) : Value :=
  .object [("txid", .string (sampleHash id)),
    ("vin", .array [.object [("txid", .string (sampleHash spent)), ("vout", .ofNat 0),
      ("prevout", sampleVout)]]),
    ("vout", .array [sampleVout])]

def sampleBlock (height : Nat) (hash : Char) (txs : List Value) : Value :=
  .object [("height", .ofNat height), ("hash", .string (sampleHash hash)), ("time", .ofNat 123),
    ("tx", .array txs)]

def sampleStored (block : Value)
    (h : (extract sampleScripts block "commit" []).toOption.isSome) : CanonicalBlock sampleScripts where
  value := block
  commitId := "commit"
  resolved := []
  evidence := (extract sampleScripts block "commit" []).toOption.get h
  extracted := ok_get h

/-- The second block creates the outpoint of the first again, and the third spends it. -/
def reissued : Chain sampleScripts where
  blocks := [sampleStored (sampleBlock 1 'a' [sampleCoinbase '1']) (by decide +kernel),
    sampleStored (sampleBlock 2 'b' [sampleCoinbase '1']) (by decide +kernel),
    sampleStored (sampleBlock 3 'c' [sampleCoinbase '2', sampleSpend '3' '1']) (by decide +kernel)]
  ascending := by decide +kernel

theorem reissued_agrees : SpendsExisting reissued.movements ∧ CommitsToSpends reissued.movements ∧
    reissued.Agree :=
  ⟨by decide +kernel, by decide +kernel,
    (utxos_replay reissued).2 (by decide +kernel) (by decide +kernel)⟩

/-- A transaction of the second block spends an output of its own id. -/
def ownSpend : Chain sampleScripts where
  blocks := [sampleStored (sampleBlock 1 'a' [sampleCoinbase '1']) (by decide +kernel),
    sampleStored (sampleBlock 2 'b' [sampleCoinbase '2', sampleSpend '1' '1']) (by decide +kernel)]
  ascending := by decide +kernel

theorem own_spend_disagrees : ¬ ∀ (scripts : ScriptLibrary) (c : Chain scripts),
    SpendsExisting c.movements → c.Agree := by
  intro h
  have hreplay : (ownSpend.unspent (sampleHash '1', 0)).isSome := by decide +kernel
  obtain ⟨coin, hcoin⟩ := Option.isSome_iff_exists.mp hreplay
  obtain ⟨o, ho, hpoint, _⟩ := (h _ ownSpend (by decide +kernel) _ coin).mpr hcoin
  have hnone : ∀ o ∈ utxos ownSpend.outputs ownSpend.inputs,
      outputPoint o ≠ (sampleHash '1', 0) := by decide +kernel
  exact hnone o ho hpoint

end AmlReal.Bitcoin.UnspentReplay
