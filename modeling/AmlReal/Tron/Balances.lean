import Mathlib.Algebra.GroupWithZero.Nat
import Mathlib.Data.List.Dedup
import Mathlib.Data.List.Sublists
import Mathlib.Algebra.BigOperators.Group.List.Basic
import AmlReal.Foundations.LatestRows

/-! # TRON balances

The two materialized views that turn relationships into deltas and the view
`wallet_asset_balances` over them, of `init_database_tron.sql`. Sums are those of
`UInt256`; where they pass its range, the view compares and subtracts what is
left of them. -/

namespace AmlReal.Tron.Balances
open AmlReal.Foundations.LatestRows

/-- The values of a `UInt256`. -/
def WIDTH : Nat := 2 ^ 256

def ZERO_ADDRESS : String := "T9yD14Nj9j7xAB4dbGeiX9h8unkKHxuWwb"

/-- A row of `address_relationships`. -/
structure Relationship where
  relationshipId : String
  fromAddress : String
  toAddress : String
  tokenAddress : String
  txHash : String
  blockNumber : Nat
  timestamp : Nat
  amount : Nat
  amount_lt : amount < WIDTH
  deriving DecidableEq

/-- The rows as they were inserted; a replay inserts a row again as it was. -/
structure Tables where
  relationships : List Relationship
  /-- The `COMPLETE` rows of `ingested_blocks`. -/
  completeBlocks : List Nat
  replayed : ∀ a ∈ relationships, ∀ b ∈ relationships, a.relationshipId = b.relationshipId → a = b

inductive AssetType where
  | native
  | trc10
  | trc20
  deriving DecidableEq

def assetTypeOf (tokenAddress : String) : AssetType :=
  if tokenAddress = "TRX" then .native
  else if tokenAddress.startsWith "TRC10:" then .trc10
  else .trc20

inductive Direction where
  | sent
  | received
  deriving DecidableEq

/-- A row of `wallet_asset_balance_deltas_v3`. -/
structure Delta where
  deltaId : String
  txHash : String
  blockNumber : Nat
  timestamp : Nat
  address : String
  assetType : AssetType
  assetId : String
  amountRaw : Nat
  direction : Direction
  deriving DecidableEq

/-! ## The views -/

def Direction.suffix : Direction → String
  | .sent => ":from"
  | .received => ":to"

def Direction.addressOf : Direction → Relationship → String
  | .sent => Relationship.fromAddress
  | .received => Relationship.toAddress

/-- A delta of a relationship, for its sender or its receiver. -/
def deltaOf (direction : Direction) (r : Relationship) : List Delta :=
  if 0 < r.amount ∧ direction.addressOf r ≠ "" ∧ direction.addressOf r ≠ ZERO_ADDRESS then
    [{ deltaId := r.relationshipId ++ direction.suffix
       txHash := r.txHash
       blockNumber := r.blockNumber
       timestamp := r.timestamp
       address := direction.addressOf r
       assetType := assetTypeOf r.tokenAddress
       assetId := r.tokenAddress
       amountRaw := r.amount
       direction := direction }]
  else []

/-- `mv_wallet_asset_delta_transfer_from_v3` -/
def transferFrom : Relationship → List Delta := deltaOf .sent

/-- `mv_wallet_asset_delta_transfer_to_v3` -/
def transferTo : Relationship → List Delta := deltaOf .received

/-- What the views have inserted. -/
def deltas (db : Tables) : List Delta := db.relationships.flatMap fun r => transferFrom r ++ transferTo r

/-- The latest deltas of complete blocks. -/
def committed (db : Tables) : List Delta :=
  (newest Delta.deltaId (deltas db)).filter fun d => d.blockNumber ∈ db.completeBlocks

structure Balance where
  address : String
  assetType : AssetType
  assetId : String
  balanceRaw : Nat
  balanceIncomplete : Nat
  deriving DecidableEq

def groupOf (d : Delta) : String × AssetType × String := (d.address, d.assetType, d.assetId)

/-- `sumIf(amount_raw, direction = _)` over a group. -/
def sumIf (rows : List Delta) (direction : Direction) : Nat :=
  ((rows.filter fun d => d.direction = direction).map Delta.amountRaw).sum % WIDTH

/-- The difference of two values of `UInt256`, which is an `Int256`. -/
def difference (a b : Nat) : Int :=
  let n := (a + WIDTH - b) % WIDTH
  if n < WIDTH / 2 then n else (n : Int) - WIDTH

def toUInt256 (i : Int) : Nat := (i % WIDTH).toNat

def balanceOf (group : String × AssetType × String) (rows : List Delta) : Balance :=
  let received := sumIf rows .received
  let sent := sumIf rows .sent
  { address := group.1
    assetType := group.2.1
    assetId := group.2.2
    balanceRaw := toUInt256 (if sent ≤ received then difference received sent else 0)
    balanceIncomplete := if received < sent then 1 else 0 }

def walletAssetBalances (db : Tables) : List Balance :=
  (((committed db).map groupOf).dedup.map fun group =>
    balanceOf group ((committed db).filter fun d => groupOf d = group)).filter fun b =>
      0 < b.balanceRaw ∨ b.balanceIncomplete = 1

/-! ## What they are to report -/

/-- The relationships of complete blocks, each once. -/
def transfers (db : Tables) : List Relationship :=
  db.relationships.dedup.filter fun r => r.blockNumber ∈ db.completeBlocks

/-- What an address has received, or sent, of an asset. -/
def total (db : Tables) (direction : Direction) (address assetId : String) : Nat :=
  (((transfers db).filter fun r => direction.addressOf r = address ∧ r.tokenAddress = assetId).map
    Relationship.amount).sum

/-- The balance and its mark that the view has for an address and asset; without a row both are zero. -/
def reported (db : Tables) (address assetId : String) : Nat × Nat :=
  match (walletAssetBalances db).find? fun b => b.address = address ∧ b.assetId = assetId with
  | some b => (b.balanceRaw, b.balanceIncomplete)
  | none => (0, 0)

/-- The balance in natural numbers. -/
def expected (db : Tables) (address assetId : String) : Nat × Nat :=
  (total db .received address assetId - total db .sent address assetId,
    if total db .received address assetId < total db .sent address assetId then 1 else 0)

/-- The sums of an address and asset pass the range of `UInt256` equally often, or what was sent does
so more often and is greater in what is left of it too. -/
def InRange (received sent : Nat) : Prop :=
  received / WIDTH = sent / WIDTH ∨ (received / WIDTH < sent / WIDTH ∧ received % WIDTH < sent % WIDTH)

/-! ## Sums of deltas -/

theorem mem_deltaOf {direction : Direction} {r : Relationship} {d : Delta} (h : d ∈ deltaOf direction r) :
    d.deltaId = r.relationshipId ++ direction.suffix ∧ d.blockNumber = r.blockNumber ∧
      d.direction = direction := by
  unfold deltaOf at h
  split_ifs at h
  · obtain rfl := List.mem_singleton.mp h
    exact ⟨rfl, rfl, rfl⟩
  · cases h

theorem mem_deltas_of {r : Relationship} {d : Delta} :
    d ∈ transferFrom r ++ transferTo r ↔ ∃ direction, d ∈ deltaOf direction r := by
  rw [List.mem_append]
  constructor
  · rintro (h | h)
    · exact ⟨.sent, h⟩
    · exact ⟨.received, h⟩
  · rintro ⟨_ | _, h⟩
    · exact Or.inl h
    · exact Or.inr h

theorem suffix_ne (x y : String) : x ++ Direction.suffix .sent ≠ y ++ Direction.suffix .received := by
  intro h
  have hlast := congrArg (fun s : String => s.toList.getLast?) h
  simp [Direction.suffix] at hlast

/-- A delta id names the relationship and the side. -/
theorem deltaId_inj {x y : String} {a b : Direction} (h : x ++ a.suffix = y ++ b.suffix) :
    x = y ∧ a = b := by
  cases a <;> cases b
  · exact ⟨by simpa using h, rfl⟩
  · exact absurd h (suffix_ne x y)
  · exact absurd h.symm (suffix_ne y x)
  · exact ⟨by simpa using h, rfl⟩

theorem deltaOf_same {direction : Direction} {r : Relationship} {d e : Delta}
    (hd : d ∈ deltaOf direction r) (he : e ∈ deltaOf direction r) : d = e := by
  unfold deltaOf at hd he
  split_ifs at hd he
  · exact (List.mem_singleton.mp hd).trans (List.mem_singleton.mp he).symm
  · cases hd

/-- Deltas of one id are the same row. -/
theorem delta_unique (db : Tables) {d e : Delta} (hd : d ∈ deltas db) (he : e ∈ deltas db)
    (h : d.deltaId = e.deltaId) : d = e := by
  obtain ⟨r, hr, hd⟩ := List.mem_flatMap.mp hd
  obtain ⟨o, ho, he⟩ := List.mem_flatMap.mp he
  obtain ⟨a, hd⟩ := mem_deltas_of.mp hd
  obtain ⟨b, he⟩ := mem_deltas_of.mp he
  rw [(mem_deltaOf hd).1, (mem_deltaOf he).1] at h
  obtain ⟨hid, rfl⟩ := deltaId_inj h
  obtain rfl := db.replayed r hr o ho hid
  exact deltaOf_same hd he

theorem deltaOf_nodup (direction : Direction) (r : Relationship) : (deltaOf direction r).Nodup := by
  unfold deltaOf
  split_ifs
  · exact List.nodup_singleton _
  · exact List.nodup_nil

theorem deltasOf_nodup (r : Relationship) : (transferFrom r ++ transferTo r).Nodup := by
  refine List.nodup_append'.mpr ⟨deltaOf_nodup _ r, deltaOf_nodup _ r, fun d hsent hreceived => ?_⟩
  have h := (mem_deltaOf hsent).2.2.symm.trans (mem_deltaOf hreceived).2.2
  cases h

/-- Replays leave one delta for each side of a distinct relationship. -/
theorem newest_perm (db : Tables) : (newest Delta.deltaId (deltas db)).Perm
    (db.relationships.dedup.flatMap fun r => transferFrom r ++ transferTo r) := by
  refine (List.perm_ext_iff_of_nodup (latest_nodup _) ?_).mpr fun d => ?_
  · refine List.nodup_flatMap.mpr ⟨fun r _ => deltasOf_nodup r, ?_⟩
    refine (List.nodup_dedup _).pairwise_of_forall_ne fun r hr o ho hne => ?_
    refine List.disjoint_left.mpr fun d hd he => hne ?_
    obtain ⟨a, hd⟩ := mem_deltas_of.mp hd
    obtain ⟨b, he⟩ := mem_deltas_of.mp he
    have hid := deltaId_inj ((mem_deltaOf hd).1.symm.trans (mem_deltaOf he).1)
    exact db.replayed r (List.mem_dedup.mp hr) o (List.mem_dedup.mp ho) hid.1
  · have hmem : d ∈ (db.relationships.dedup.flatMap fun r => transferFrom r ++ transferTo r) ↔
        d ∈ deltas db := by
      simp only [deltas, List.mem_flatMap, List.mem_dedup]
    rw [hmem]
    refine ⟨mem_of_mem_latest, fun hd => ?_⟩
    obtain ⟨m, hm, hid, _⟩ : ∃ m ∈ newest Delta.deltaId (deltas db), m.deltaId = d.deltaId ∧ 0 ≤ 0 :=
      exists_mem_latest hd
    rwa [← delta_unique db (mem_of_mem_latest hm) hd hid]

/-- An address that no delta is made for. -/
def Excluded (address : String) : Prop := address = "" ∨ address = ZERO_ADDRESS

theorem sum_filter_flatMap {α β : Type} (l : List α) (f : α → List β) (p : β → Bool) (g : β → Nat) :
    (((l.flatMap f).filter p).map g).sum = (l.map fun x => (((f x).filter p).map g).sum).sum := by
  induction l with
  | nil => rfl
  | cons x rest ih => simp [List.filter_append, ih]

theorem sum_filter {α : Type} (l : List α) (p : α → Bool) (g : α → Nat) :
    ((l.filter p).map g).sum = (l.map fun x => if p x then g x else 0).sum := by
  induction l with
  | nil => rfl
  | cons x rest ih => by_cases hp : p x = true <;> simp [hp, ih]

section
variable (db : Tables) (address assetId : String)

def groupFor : String × AssetType × String := (address, assetTypeOf assetId, assetId)

/-- The deltas of an address and asset. -/
def rowsFor : List Delta := (committed db).filter fun d => groupOf d = groupFor address assetId

variable {db address assetId}

theorem deltaOf_excluded {direction : Direction} {r : Relationship}
    (h : Excluded (direction.addressOf r)) : deltaOf direction r = [] := by
  unfold deltaOf
  rw [if_neg]
  rintro ⟨_, hempty, hzero⟩
  exact h.elim hempty hzero

variable (db assetId) in
/-- What one relationship adds to the sum of its side. -/
theorem sum_deltaOf (haddress : ¬ Excluded address) (direction : Direction) (r : Relationship) :
    (((transferFrom r ++ transferTo r).filter fun d => (d.direction = direction ∧
      groupOf d = groupFor address assetId) ∧ d.blockNumber ∈ db.completeBlocks).map Delta.amountRaw).sum =
      if (direction.addressOf r = address ∧ r.tokenAddress = assetId) ∧
        r.blockNumber ∈ db.completeBlocks then r.amount else 0 := by
  have hside : ∀ side : Direction, (((deltaOf side r).filter fun d => (d.direction = direction ∧
      groupOf d = groupFor address assetId) ∧ d.blockNumber ∈ db.completeBlocks).map
        Delta.amountRaw).sum = if side = direction ∧ (direction.addressOf r = address ∧
          r.tokenAddress = assetId) ∧ r.blockNumber ∈ db.completeBlocks then r.amount else 0 := by
    intro side
    by_cases hmade : 0 < r.amount ∧ side.addressOf r ≠ "" ∧ side.addressOf r ≠ ZERO_ADDRESS
    · rw [deltaOf, if_pos hmade]
      by_cases hcounts : side = direction ∧ (direction.addressOf r = address ∧
          r.tokenAddress = assetId) ∧ r.blockNumber ∈ db.completeBlocks
      · obtain ⟨rfl, ⟨rfl, rfl⟩, hblock⟩ := hcounts
        simp [groupOf, groupFor, hblock]
      · rw [if_neg hcounts, List.filter_eq_nil_iff.mpr]
        · rfl
        · intro d hd hkept
          obtain rfl := List.mem_singleton.mp hd
          simp only [groupOf, groupFor, Prod.mk.injEq, decide_eq_true_eq] at hkept
          obtain ⟨⟨rfl, rfl, _, rfl⟩, hblock⟩ := hkept
          exact hcounts ⟨rfl, ⟨rfl, rfl⟩, hblock⟩
    · rw [deltaOf, if_neg hmade]
      split_ifs with hcounts
      · obtain ⟨rfl, ⟨rfl, _⟩, _⟩ := hcounts
        have hzero : ¬ 0 < r.amount := fun hpos => hmade ⟨hpos, not_or.mp haddress⟩
        show 0 = r.amount
        omega
      · rfl
  rw [List.filter_append, List.map_append, List.sum_append]
  show (((deltaOf .sent r).filter _).map _).sum + (((deltaOf .received r).filter _).map _).sum = _
  rw [hside, hside]
  cases direction <;> simp

/-- The sums of the view are the totals in the range of `UInt256`. -/
theorem sumIf_rowsFor (haddress : ¬ Excluded address) (direction : Direction) :
    sumIf (rowsFor db address assetId) direction = total db direction address assetId % WIDTH := by
  unfold sumIf rowsFor committed total transfers
  rw [List.filter_filter, List.filter_filter]
  congr 1
  have hperm := ((newest_perm db).filter fun d => decide (d.direction = direction) &&
    decide (groupOf d = groupFor address assetId) && decide (d.blockNumber ∈ db.completeBlocks)).map
      Delta.amountRaw
  rw [hperm.sum_eq, sum_filter_flatMap, List.filter_filter, sum_filter]
  refine congrArg List.sum (List.map_congr_left fun r _ => ?_)
  have hone := sum_deltaOf db assetId haddress direction r
  simp only [Bool.decide_and] at hone ⊢
  rw [hone]
  simp

/-- An excluded address has no deltas. -/
theorem rowsFor_excluded (haddress : Excluded address) : rowsFor db address assetId = [] := by
  refine List.filter_eq_nil_iff.mpr fun d hd hgroup => ?_
  have hmem := mem_of_mem_latest (List.mem_filter.mp hd).1
  obtain ⟨r, _, hdelta⟩ := List.mem_flatMap.mp hmem
  obtain ⟨direction, hdelta⟩ := mem_deltas_of.mp hdelta
  simp only [groupOf, groupFor, Prod.mk.injEq, decide_eq_true_eq] at hgroup
  have haddr : d.address = direction.addressOf r := by
    unfold deltaOf at hdelta
    split_ifs at hdelta
    · obtain rfl := List.mem_singleton.mp hdelta
      rfl
    · cases hdelta
  rw [deltaOf_excluded (by rw [← haddr, hgroup.1]; exact haddress)] at hdelta
  cases hdelta

theorem assetType_committed {d : Delta} (hd : d ∈ committed db) :
    d.assetType = assetTypeOf d.assetId := by
  have hmem := mem_of_mem_latest (List.mem_filter.mp hd).1
  obtain ⟨r, _, hdelta⟩ := List.mem_flatMap.mp hmem
  obtain ⟨direction, hdelta⟩ := mem_deltas_of.mp hdelta
  unfold deltaOf at hdelta
  split_ifs at hdelta
  · obtain rfl := List.mem_singleton.mp hdelta
    rfl
  · cases hdelta

/-- Within the range of `UInt256` the conversions change nothing. -/
theorem toUInt256_difference {a b : Nat} (ha : a < WIDTH) (hle : b ≤ a) :
    toUInt256 (difference a b) = a - b := by
  have hmod : (a + WIDTH - b) % WIDTH = a - b := by
    rw [show a + WIDTH - b = a - b + WIDTH by omega, Nat.add_mod_right]
    exact Nat.mod_eq_of_lt (by omega)
  unfold difference toUInt256
  simp only [hmod]
  have hlt : a - b < WIDTH := by omega
  split_ifs
  · rw [Int.emod_eq_of_lt (by omega) (by omega)]
    rfl
  · rw [show ((a - b : Nat) : Int) - WIDTH = ((a - b : Nat) : Int) + WIDTH * (-1) by omega,
      Int.add_mul_emod_self_left, Int.emod_eq_of_lt (by omega) (by omega)]
    rfl

theorem balance_of_none : balanceOf (groupFor address assetId) [] =
    ⟨address, assetTypeOf assetId, assetId, 0, 0⟩ := by
  have hzero : sumIf [] .received = 0 ∧ sumIf [] .sent = 0 := by decide
  have hraw : toUInt256 (difference 0 0) = 0 := toUInt256_difference (by decide) (Nat.le_refl 0)
  simp [balanceOf, groupFor, hzero, hraw]

/-- What the view has for an address and asset is the balance of their deltas. -/
theorem reported_eq : reported db address assetId =
    ((balanceOf (groupFor address assetId) (rowsFor db address assetId)).balanceRaw,
      (balanceOf (groupFor address assetId) (rowsFor db address assetId)).balanceIncomplete) := by
  have hrow : ∀ b ∈ walletAssetBalances db, b.address = address → b.assetId = assetId →
      b = balanceOf (groupFor address assetId) (rowsFor db address assetId) := by
    intro b hb haddress hasset
    obtain ⟨group, hgroup, rfl⟩ := List.mem_map.mp (List.mem_filter.mp hb).1
    obtain ⟨d, hd, rfl⟩ := List.mem_map.mp (List.mem_dedup.mp hgroup)
    have hsame : groupOf d = groupFor address assetId := by
      unfold groupOf groupFor
      rw [assetType_committed hd]
      have h1 : d.address = address := haddress
      have h2 : d.assetId = assetId := hasset
      rw [h1, h2]
    rw [hsame]
    rfl
  unfold reported
  cases hfind : (walletAssetBalances db).find? fun b => b.address = address ∧ b.assetId = assetId with
  | some b =>
    have hmatch := List.find?_some hfind
    simp only [decide_eq_true_eq] at hmatch
    rw [hrow b (List.mem_of_find?_eq_some hfind) hmatch.1 hmatch.2]
  | none =>
    -- no row: the group has no deltas, or nothing to show
    have hnone := List.find?_eq_none.mp hfind
    by_cases hgroup : groupFor address assetId ∈ (committed db).map groupOf
    · have hhidden : ¬ (0 < (balanceOf (groupFor address assetId) (rowsFor db address assetId)).balanceRaw ∨
          (balanceOf (groupFor address assetId) (rowsFor db address assetId)).balanceIncomplete = 1) := by
        intro hshown
        refine hnone (balanceOf (groupFor address assetId) (rowsFor db address assetId)) ?_
          (by simp [balanceOf, groupFor])
        refine List.mem_filter.mpr ⟨List.mem_map.mpr ⟨_, List.mem_dedup.mpr hgroup, rfl⟩, ?_⟩
        simpa using hshown
      rw [not_or] at hhidden
      have hmark : (balanceOf (groupFor address assetId) (rowsFor db address assetId)).balanceIncomplete = 0 := by
        have hone := hhidden.2
        unfold balanceOf at hone ⊢
        simp only at hone ⊢
        split_ifs at hone ⊢ with hlt
        · exact absurd rfl hone
        · rfl
      rw [hmark, Nat.eq_zero_of_not_pos hhidden.1]
    · have hempty : rowsFor db address assetId = [] :=
        List.filter_eq_nil_iff.mpr fun d hd hsame =>
          hgroup (List.mem_map.mpr ⟨d, hd, of_decide_eq_true hsame⟩)
      rw [hempty, balance_of_none]

theorem reported_wallet (haddress : ¬ Excluded address) : reported db address assetId =
    (total db .received address assetId % WIDTH - total db .sent address assetId % WIDTH,
      if total db .received address assetId % WIDTH < total db .sent address assetId % WIDTH
      then 1 else 0) := by
  rw [reported_eq]
  unfold balanceOf
  simp only [sumIf_rowsFor haddress]
  have hlt : total db .received address assetId % WIDTH < WIDTH := Nat.mod_lt _ (by decide)
  congr 1
  split_ifs with hle
  · exact toUInt256_difference hlt hle
  · rw [Nat.sub_eq_zero_of_le (by omega)]
    rfl

end

/-- What is left of two sums gives their difference and its sign just when they are in range. -/
theorem left_exact_iff (received sent : Nat) :
    (received % WIDTH - sent % WIDTH, if received % WIDTH < sent % WIDTH then 1 else 0) =
      ((received - sent, if received < sent then 1 else 0) : Nat × Nat) ↔ InRange received sent := by
  have hr := Nat.div_add_mod received WIDTH
  have hs := Nat.div_add_mod sent WIDTH
  have hrlt : received % WIDTH < WIDTH := Nat.mod_lt _ (by decide)
  have hslt : sent % WIDTH < WIDTH := Nat.mod_lt _ (by decide)
  unfold InRange
  rw [Prod.mk.injEq]
  generalize received % WIDTH = r at *
  generalize sent % WIDTH = s at *
  generalize received / WIDTH = a at *
  generalize sent / WIDTH = b at *
  rcases Nat.lt_trichotomy a b with hab | hab | hab
  · have hmul : WIDTH * (a + 1) ≤ WIDTH * b := Nat.mul_le_mul_left _ hab
    rw [Nat.mul_add, Nat.mul_one] at hmul
    have hless : received < sent := by omega
    rw [if_pos hless]
    split_ifs with hlt
    · exact ⟨fun _ => Or.inr ⟨hab, hlt⟩, fun _ => ⟨by omega, rfl⟩⟩
    · exact ⟨fun h => absurd h.2 (by decide), fun h => by omega⟩
  · subst hab
    refine ⟨fun _ => Or.inl rfl, fun _ => ⟨by omega, ?_⟩⟩
    have hiff : r < s ↔ received < sent := by omega
    simp only [hiff]
  · have hmul : WIDTH * (b + 1) ≤ WIDTH * a := Nat.mul_le_mul_left _ hab
    rw [Nat.mul_add, Nat.mul_one] at hmul
    refine ⟨fun h => ?_, fun h => by omega⟩
    have hnot : ¬ received < sent := by omega
    rw [if_neg hnot] at h
    have hge : ¬ r < s := fun hlt => by
      rw [if_pos hlt] at h
      exact absurd h.2 (by decide)
    omega

/-- The balances, for all relationships, complete blocks, addresses and assets: the view reports the
balance in natural numbers just when the sums are in range. For the empty and the zero address, which
the views leave out, this is when the two sums are equal. -/
theorem balance_exact_iff (db : Tables) (address assetId : String) :
    reported db address assetId = expected db address assetId ↔
      (Excluded address → total db .received address assetId = total db .sent address assetId) ∧
      (¬ Excluded address →
        InRange (total db .received address assetId) (total db .sent address assetId)) := by
  by_cases haddress : Excluded address
  · have hnone : reported db address assetId = (0, 0) := by
      rw [reported_eq, rowsFor_excluded haddress, balance_of_none]
    unfold expected
    rw [hnone, Prod.mk.injEq]
    simp only [haddress, forall_true_left, not_true_eq_false, false_imp_iff, and_true]
    split_ifs with hlt
    · exact ⟨fun h => absurd h.2 (by decide), fun h => by omega⟩
    · exact ⟨fun h => by omega, fun h => ⟨by omega, rfl⟩⟩
  · rw [reported_wallet haddress]
    unfold expected
    simp only [haddress, not_false_eq_true, forall_true_left, false_imp_iff, true_and]
    exact left_exact_iff _ _

/-- Two transfers of half the range of `UInt256` each. -/
def halves : Tables where
  relationships := [⟨"r1", "m", "w", "token", "x1", 1, 0, 2 ^ 255, by decide⟩,
    ⟨"r2", "m", "w", "token", "x2", 1, 0, 2 ^ 255, by decide⟩]
  completeBlocks := [1]
  replayed := by decide

/-- The balance of the receiver vanishes. -/
theorem halves_vanish : ¬ ∀ (db : Tables) (address assetId : String),
    reported db address assetId = expected db address assetId := by
  intro h
  have hsame := h halves "w" "token"
  have hreported : reported halves "w" "token" = (0, 0) := by decide +kernel
  have hexpected : expected halves "w" "token" = (2 ^ 256, 0) := by decide +kernel
  rw [hreported, hexpected] at hsame
  exact absurd (congrArg Prod.fst hsame) (by decide)

end AmlReal.Tron.Balances
