import Mathlib.Algebra.GroupWithZero.Nat
import AmlReal.Foundations.Checks
import AmlReal.Foundations.HexText
import AmlReal.Foundations.Json

/-! # TRON token transfers

`extract_trc20_transfers` with the addresses and amounts it reads
(`transfer_extractor.rs`, `tron_address.rs`). Texts are read as their characters.
A log that looks like a transfer and whose data is not one word either counts as
a transfer or fails the whole receipt, unless its data is zero. -/

namespace AmlReal.Tron.TokenTransfers
open AmlReal.Foundations AmlReal.Foundations.Checks AmlReal.Foundations.Json

/-- SHA-256 and Base58. -/
structure Codecs where
  sha256 : List Nat → List Nat
  base58Encode : List Nat → String
  base58Decode : String → Option (List Nat)

/-! ## Texts -/

/-- `trim_start_matches` with a zero and a character. -/
def trimZeroPairs (x : Char) : List Char → List Char
  | a :: b :: rest => if a = '0' ∧ b = x then trimZeroPairs x rest else a :: b :: rest
  | cs => cs

/-- `trim_start_matches("0x").trim_start_matches("0X")` -/
def trimHexPrefixes (cs : List Char) : List Char := trimZeroPairs 'X' (trimZeroPairs 'x' cs)

/-- `str::len`: bytes, not characters. -/
def byteLength (cs : List Char) : Nat := (cs.map Char.utf8Size).sum

/-! ## Addresses -/

def normalizeHexPayload (cleaned : List Char) : Option (List Char) :=
  if cleaned.all HexText.isHex then
    if cleaned.length = 42 ∧ ['4', '1'].isPrefixOf cleaned then some cleaned
    else if cleaned.length = 40 then some ('4' :: '1' :: cleaned)
    else if 42 < cleaned.length then
      let last42 := cleaned.drop (cleaned.length - 42)
      if ['4', '1'].isPrefixOf last42 then some last42
      else some ('4' :: '1' :: cleaned.drop (cleaned.length - 40))
    else none
  else none

section
variable (codecs : Codecs)

def checksum (payload : List Nat) : List Nat := (codecs.sha256 (codecs.sha256 payload)).take 4

def hexToBase58 (hexAddr : String) : Option String := do
  let normalized ← normalizeHexPayload (trimHexPrefixes hexAddr.toList)
  let bytes ← HexText.decode normalized
  if bytes.length = 21 ∧ bytes.head? = some 0x41 then
    some (codecs.base58Encode (bytes ++ checksum codecs bytes))
  else none

def base58ToHex (addr : String) : Option String := do
  let decoded ← codecs.base58Decode addr
  let raw := decoded.take 21
  if decoded.length = 25 ∧ raw.head? = some 0x41 ∧ checksum codecs raw = decoded.drop 21 then
    some (String.ofList (raw.flatMap fun byte =>
      [(Nat.digitChar (byte / 16)).toUpper, (Nat.digitChar (byte % 16)).toUpper]))
  else none

def normalizeTronAddress (addr : String) : Option String :=
  if addr = "" then none
  else if addr.toList.head? = some 'T' then (base58ToHex codecs addr).map fun _ => addr
  else hexToBase58 codecs addr

end

/-! ## Transfers -/

inductive TransferKind where
  | native
  | trc10
  | trc20
  | internal
  deriving DecidableEq

structure ExtractedTransfer where
  transferId : String
  assetId : String
  fromAddress : String
  toAddress : String
  amount : Nat
  kind : TransferKind
  deriving DecidableEq

def standardTransferTopic : String :=
  "ddf252ad1be2c89b69c2b068fc378daa952ba7f163c4a11628f55a4df523b3ef"

def parseUint256Hex (value : String) : Except String Nat := do
  let digits := (trimHexPrefixes value.toList).dropWhile (· = '0')
  ensure (byteLength digits ≤ 64) "uint256 value exceeds 32 bytes"
  if digits = [] then pure 0
  else do
    let normalized := if byteLength digits % 2 = 0 then digits else '0' :: digits
    let bytes ← context (HexText.decode normalized) "invalid uint256 hex value"
    pure (HexText.bytesValue bytes)

structure TransferParties where
  assetId : String
  fromAddress : String
  toAddress : String

section
variable (codecs : Codecs)

/-- The contract and the parties of a log that has the shape of a transfer. -/
def transferParties (log : Value) : Option TransferParties := do
  let topics ← log["topics"].asArray
  if topics.length < 3 then none
  else do
    let topic0 := trimHexPrefixes ((topics.getD 0 .null).asStr.getD "").toList
    if topic0.map Char.toLower ≠ standardTransferTopic.toList then none
    else do
      let assetId ← log["address"].asStr >>= normalizeTronAddress codecs
      let fromAddress ← (topics.getD 1 .null).asStr >>= normalizeTronAddress codecs
      let toAddress ← (topics.getD 2 .null).asStr >>= normalizeTronAddress codecs
      pure ⟨assetId, fromAddress, toAddress⟩

def logData (log : Value) : String := log["data"].asStr.getD "0x0"

def tokenTransfer (txHash : String) (logIndex : Nat) (parties : TransferParties) (amount : Nat) :
    ExtractedTransfer :=
  ⟨s!"{txHash}:log:{logIndex}", parties.assetId, parties.fromAddress, parties.toAddress, amount,
    .trc20⟩

/-- One round of the loop over the logs. -/
def logTransfer (txHash : String) (logIndex : Nat) (log : Value) :
    Except String (Option ExtractedTransfer) :=
  match transferParties codecs log with
  | none => pure none
  | some parties =>
    match parseUint256Hex (logData log) with
    | .error error => .error s!"invalid TRC20 amount at log index {logIndex}: {error}"
    | .ok amount => pure (if amount = 0 then none else some (tokenTransfer txHash logIndex parties amount))

def extractFrom (txHash : String) : List (Value × Nat) → Except String (List ExtractedTransfer)
  | [] => pure []
  | (log, logIndex) :: rest => do
    let transfer ← logTransfer codecs txHash logIndex log
    let transfers ← extractFrom txHash rest
    pure (transfer.toList ++ transfers)

/-- The logs of a receipt with their indices. -/
def receiptLogs (receipt : Value) : List (Value × Nat) := (receipt["log"].asArray.getD []).zipIdx

def extractTrc20Transfers (receipt : Value) (txHash : String) :
    Except String (List ExtractedTransfer) := extractFrom codecs txHash (receiptLogs receipt)

/-! ## What a receipt holds -/

/-- A text with at most one prefix. -/
def withoutPrefix : List Char → List Char
  | a :: b :: rest => if a = '0' ∧ (b = 'x' ∨ b = 'X') then rest else a :: b :: rest
  | cs => cs

/-- The number of a text that spells exactly 32 bytes. -/
def word (data : String) : Option Nat :=
  let digits := withoutPrefix data.toList
  if digits.length = 64 ∧ digits.all HexText.isHex then some (HexText.value digits) else none

/-- The transfer that a log is: the shape of one, and a word that is not zero. -/
def expectedTransfer (txHash : String) (entry : Value × Nat) : Option ExtractedTransfer := do
  let parties ← transferParties codecs entry.1
  let amount ← word (logData entry.1)
  if amount = 0 then none else some (tokenTransfer txHash entry.2 parties amount)

def expectedTransfers (receipt : Value) (txHash : String) : List ExtractedTransfer :=
  (receiptLogs receipt).filterMap (expectedTransfer codecs txHash)

/-- Nothing but zeros after the prefixes. -/
def zeroData (data : String) : Prop := (trimHexPrefixes data.toList).dropWhile (· = '0') = []

instance (data : String) : Decidable (zeroData data) := inferInstanceAs (Decidable (_ = _))

end

/-! ## Amounts -/

theorem trimZeroPairs_of_isHex {x : Char} {cs : List Char} (hx : HexText.isHex x = false)
    (h : cs.all HexText.isHex = true) : trimZeroPairs x cs = cs := by
  match cs with
  | [] => rfl
  | [_] => rfl
  | a :: b :: rest =>
    rw [trimZeroPairs, if_neg]
    rintro ⟨_, rfl⟩
    simp only [List.all_cons, Bool.and_eq_true] at h
    rw [h.2.1] at hx
    cases hx

/-- Of a text of digits no more than one prefix is trimmed. -/
theorem trimHexPrefixes_eq {cs : List Char} (h : (withoutPrefix cs).all HexText.isHex = true) :
    trimHexPrefixes cs = withoutPrefix cs := by
  unfold trimHexPrefixes
  match cs with
  | [] => rfl
  | [_] => rfl
  | a :: b :: rest =>
    rw [withoutPrefix] at h ⊢
    split at h
    · rename_i hprefix
      rw [if_pos hprefix]
      obtain ⟨rfl, rfl | rfl⟩ := hprefix
      · rw [trimZeroPairs, if_pos ⟨rfl, rfl⟩, trimZeroPairs_of_isHex (by decide) h,
          trimZeroPairs_of_isHex (by decide) h]
      · rw [trimZeroPairs, if_neg (by decide), trimZeroPairs, if_pos ⟨rfl, rfl⟩,
          trimZeroPairs_of_isHex (by decide) h]
    · rename_i hprefix
      rw [if_neg hprefix, trimZeroPairs_of_isHex (by decide) h, trimZeroPairs_of_isHex (by decide) h]

theorem byteLength_of_isHex {cs : List Char} (h : cs.all HexText.isHex = true) :
    byteLength cs = cs.length := by
  induction cs with
  | nil => rfl
  | cons c rest ih =>
    simp only [List.all_cons, Bool.and_eq_true] at h
    have hrest := ih h.2
    unfold byteLength at hrest ⊢
    rw [List.map_cons, List.sum_cons, hrest, HexText.utf8Size_of_isHex h.1, List.length_cons]
    omega

theorem parseUint256Hex_word {data : String} {amount : Nat} (h : word data = some amount) :
    parseUint256Hex data = .ok amount := by
  unfold word at h
  dsimp only at h
  split at h
  · rename_i hword
    obtain ⟨hlength, hall⟩ := hword
    obtain rfl := Option.some.inj h
    have htrim := trimHexPrefixes_eq hall
    generalize withoutPrefix data.toList = digits at hlength hall htrim ⊢
    have hvalue := HexText.value_dropWhile digits
    have hsub : ((digits.dropWhile (· = '0')).all HexText.isHex) = true := by
      rw [List.all_eq_true] at hall ⊢
      exact fun c hc => hall c ((List.dropWhile_sublist _).subset hc)
    have hle : (digits.dropWhile (· = '0')).length ≤ 64 := by
      rw [← hlength]; exact (List.dropWhile_sublist _).length_le
    unfold parseUint256Hex
    dsimp only
    rw [htrim, byteLength_of_isHex hsub, ensure_eq hle, ok_bind]
    split
    · rename_i hnil
      rw [← hvalue, hnil]; rfl
    · generalize digits.dropWhile (· = '0') = stripped at hvalue hsub
      have hnormal : ∀ normalized, (normalized = stripped ∨ normalized = '0' :: stripped) →
          normalized.length % 2 = 0 →
          (context (HexText.decode normalized) "invalid uint256 hex value" >>= fun bytes =>
            (pure (HexText.bytesValue bytes) : Except String Nat)) = .ok (HexText.value digits) := by
        rintro normalized hcases heven
        have hnormalAll : normalized.all HexText.isHex = true := by
          rcases hcases with rfl | rfl
          · exact hsub
          · rw [List.all_cons, hsub]; decide
        have hnormalValue : HexText.value normalized = HexText.value digits := by
          rcases hcases with rfl | rfl
          · exact hvalue
          · rw [HexText.value_zero_cons, hvalue]
        obtain ⟨bytes, hbytes⟩ := HexText.exists_decode hnormalAll heven
        rw [hbytes, context_some, ok_bind, HexText.bytesValue_decode hbytes, hnormalValue]
        rfl
      split
      · rename_i heven
        exact hnormal _ (Or.inl rfl) heven
      · rename_i hodd
        exact hnormal _ (Or.inr rfl) (by rw [List.length_cons]; omega)
  · cases h

theorem parseUint256Hex_zero {data : String} (h : zeroData data) : parseUint256Hex data = .ok 0 := by
  unfold parseUint256Hex
  unfold zeroData at h
  dsimp only
  rw [h]
  rfl

/-- Only zeros are read as zero. -/
theorem zeroData_of_parse {data : String} (h : parseUint256Hex data = .ok 0) : zeroData data := by
  by_contra hzero
  unfold parseUint256Hex at h
  unfold zeroData at hzero
  dsimp only at h
  obtain ⟨_, _, h⟩ := bind_ok h
  rw [if_neg hzero] at h
  obtain ⟨bytes, hbytes, h⟩ := bind_ok h
  have hbytes := context_ok hbytes
  have hvalue : HexText.bytesValue bytes = 0 := Except.ok.inj h
  rw [HexText.bytesValue_decode hbytes] at hvalue
  have hall := HexText.isHex_of_decode hbytes
  cases hstripped : (trimHexPrefixes data.toList).dropWhile (· = '0') with
  | nil => exact hzero hstripped
  | cons c rest =>
    have hne : c ≠ '0' := by
      have hhead := List.head_dropWhile_not (· = '0') hzero
      simpa [hstripped] using hhead
    rw [hstripped] at hvalue hall
    split at hvalue
    · rename_i heven
      rw [if_pos heven] at hall
      rw [List.all_cons, Bool.and_eq_true] at hall
      have hpos := HexText.value_pos rest hall.1 hne
      omega
    · rename_i heven
      rw [if_neg heven] at hall
      rw [List.all_cons, List.all_cons, Bool.and_eq_true, Bool.and_eq_true] at hall
      rw [HexText.value_zero_cons] at hvalue
      have hpos := HexText.value_pos rest hall.2.1 hne
      omega

/-! ## Receipts -/

theorem filterMap_eq_iff {α β : Type} {f g : α → Option β} {xs : List α}
    (h : ∀ a ∈ xs, ∀ b, f a = some b → g a = some b) :
    xs.filterMap f = xs.filterMap g ↔ ∀ a ∈ xs, f a = g a := by
  have hlength : ∀ ys : List α, (∀ a ∈ ys, ∀ b, f a = some b → g a = some b) →
      (ys.filterMap f).length ≤ (ys.filterMap g).length := by
    intro ys hys
    induction ys with
    | nil => exact Nat.le_refl _
    | cons a ys ih =>
      have hrest := ih fun b hb => hys b (by simp [hb])
      cases hf : f a with
      | none =>
        rw [List.filterMap_cons_none hf]
        exact Nat.le_trans hrest ((List.sublist_cons_self a ys).filterMap g).length_le
      | some b =>
        rw [List.filterMap_cons_some hf, List.filterMap_cons_some (hys a (by simp) b hf)]
        exact Nat.succ_le_succ hrest
  constructor
  · intro heq
    induction xs with
    | nil => simp
    | cons a xs ih =>
      have hrest : ∀ b ∈ xs, ∀ c, f b = some c → g b = some c := fun b hb => h b (by simp [hb])
      cases hf : f a with
      | some b =>
        have hg := h a (by simp) b hf
        rw [List.filterMap_cons_some hf, List.filterMap_cons_some hg] at heq
        exact List.forall_mem_cons.mpr ⟨hf.trans hg.symm, ih hrest (List.cons.inj heq).2⟩
      | none =>
        rw [List.filterMap_cons_none hf] at heq
        cases hg : g a with
        | none =>
          rw [List.filterMap_cons_none hg] at heq
          exact List.forall_mem_cons.mpr ⟨hf.trans hg.symm, ih hrest heq⟩
        | some b =>
          -- the other list would be longer
          have hle := hlength xs hrest
          rw [heq, List.filterMap_cons_some hg, List.length_cons] at hle
          omega
  · exact fun heq => List.filterMap_congr heq

section
variable {codecs : Codecs} {txHash : String}

/-- The transfer of one round, none where the round fails. -/
def writtenTransfer (codecs : Codecs) (txHash : String) (entry : Value × Nat) :
    Option ExtractedTransfer :=
  match logTransfer codecs txHash entry.2 entry.1 with
  | .ok transfer => transfer
  | .error _ => none

theorem extractFrom_eq_ok {entries : List (Value × Nat)} {transfers : List ExtractedTransfer} :
    extractFrom codecs txHash entries = .ok transfers ↔
      (∀ entry ∈ entries, ∃ transfer, logTransfer codecs txHash entry.2 entry.1 = .ok transfer) ∧
        transfers = entries.filterMap (writtenTransfer codecs txHash) := by
  induction entries generalizing transfers with
  | nil =>
    constructor
    · intro h
      exact ⟨by simp, (Except.ok.inj h).symm⟩
    · rintro ⟨_, rfl⟩
      rfl
  | cons entry rest ih =>
    obtain ⟨log, logIndex⟩ := entry
    have hwritten : ∀ transfer, logTransfer codecs txHash logIndex log = .ok transfer →
        ((log, logIndex) :: rest).filterMap (writtenTransfer codecs txHash) =
          transfer.toList ++ rest.filterMap (writtenTransfer codecs txHash) := by
      intro transfer hok
      have hhead : writtenTransfer codecs txHash (log, logIndex) = transfer := by
        simp only [writtenTransfer, hok]
      cases transfer with
      | none => rw [List.filterMap_cons_none hhead]; rfl
      | some t => rw [List.filterMap_cons_some hhead]; rfl
    constructor
    · intro h
      obtain ⟨transfer, hok, h⟩ := bind_ok h
      obtain ⟨others, hothers, h⟩ := bind_ok h
      obtain ⟨hall, rfl⟩ := ih.mp hothers
      refine ⟨List.forall_mem_cons.mpr ⟨⟨transfer, hok⟩, hall⟩, ?_⟩
      rw [hwritten transfer hok]
      exact (Except.ok.inj h).symm
    · rintro ⟨hall, rfl⟩
      obtain ⟨⟨transfer, hok⟩, hall⟩ := List.forall_mem_cons.mp hall
      rw [hwritten transfer hok]
      show (logTransfer codecs txHash logIndex log >>= fun transfer => _) = _
      rw [hok, ok_bind, ih.mpr ⟨hall, rfl⟩, ok_bind]
      rfl

theorem expected_of_word {entry : Value × Nat} {transfer : ExtractedTransfer}
    (h : expectedTransfer codecs txHash entry = some transfer) :
    logTransfer codecs txHash entry.2 entry.1 = .ok (some transfer) := by
  obtain ⟨parties, hparties, h⟩ := Option.bind_eq_some_iff.mp h
  obtain ⟨amount, hamount, h⟩ := Option.bind_eq_some_iff.mp h
  unfold logTransfer
  simp only [hparties, parseUint256Hex_word hamount]
  split at h
  · cases h
  · rename_i hne
    rw [if_neg hne]
    exact congrArg Except.ok h

/-- The extraction returns exactly the transfers that the receipt holds if and only
if the data of every log with the shape of a transfer is one word or zero. -/
theorem extracts_expected_iff (codecs : Codecs) (receipt : Value) (txHash : String) :
    extractTrc20Transfers codecs receipt txHash = .ok (expectedTransfers codecs receipt txHash) ↔
      ∀ entry ∈ receiptLogs receipt, (transferParties codecs entry.1).isSome →
        (word (logData entry.1)).isSome ∨ zeroData (logData entry.1) := by
  have hsub : ∀ entry ∈ receiptLogs receipt, ∀ transfer,
      expectedTransfer codecs txHash entry = some transfer →
        writtenTransfer codecs txHash entry = some transfer := by
    intro entry _ transfer htransfer
    simp only [writtenTransfer, expected_of_word htransfer]
  unfold extractTrc20Transfers expectedTransfers
  rw [extractFrom_eq_ok, filterMap_eq_iff hsub]
  constructor
  · rintro ⟨hok, heq⟩ entry hentry hparties
    obtain ⟨parties, hparties⟩ := Option.isSome_iff_exists.mp hparties
    obtain ⟨transfer, htransfer⟩ := hok entry hentry
    have hsame := heq entry hentry
    simp only [writtenTransfer, htransfer] at hsame
    unfold logTransfer at htransfer
    simp only [hparties] at htransfer
    split at htransfer
    · cases htransfer
    · rename_i amount hparse
      by_cases hzero : amount = 0
      · subst hzero
        exact Or.inr (zeroData_of_parse hparse)
      · -- the round has a transfer, so the log is one
        rw [if_neg hzero] at htransfer
        rw [← Except.ok.inj htransfer] at hsame
        obtain ⟨_, _, h⟩ := Option.bind_eq_some_iff.mp hsame
        obtain ⟨word', hword, _⟩ := Option.bind_eq_some_iff.mp h
        exact Or.inl (Option.isSome_iff_exists.mpr ⟨word', hword⟩)
  · intro hdata
    have hround : ∀ entry ∈ receiptLogs receipt,
        logTransfer codecs txHash entry.2 entry.1 = .ok (expectedTransfer codecs txHash entry) := by
      intro entry hentry
      unfold logTransfer expectedTransfer
      cases hparties : transferParties codecs entry.1 with
      | none => rfl
      | some parties =>
        rcases hdata entry hentry (by rw [hparties]; rfl) with hword | hzero
        · obtain ⟨amount, hamount⟩ := Option.isSome_iff_exists.mp hword
          simp only [parseUint256Hex_word hamount, hamount, Option.bind_eq_bind, Option.bind_some]
          rfl
        · cases hword : word (logData entry.1) with
          | none =>
            simp only [parseUint256Hex_zero hzero]
            rfl
          | some amount =>
            have hparse := parseUint256Hex_word hword
            rw [parseUint256Hex_zero hzero] at hparse
            obtain rfl := Except.ok.inj hparse
            simp only [parseUint256Hex_zero hzero]
            rfl
    refine ⟨fun entry hentry => ⟨_, hround entry hentry⟩, fun entry hentry => ?_⟩
    simp only [writtenTransfer, hround entry hentry]

end

/-! ## A log that stops the follower -/

/-- A transfer log of a contract, with any data. -/
def sampleReceipt (data : String) : Value :=
  .object [("log", .array [.object [
    ("address", .string "41a614f803b6fd780986a42c78ec9c7f77e6ded13c"),
    ("topics", .array [.string standardTransferTopic,
      .string "4125ad4a9a23d1865faeaea080322f3e08cc205489",
      .string "4130760c7e10b1d3509d8d64a7e9eb9ab94bc83495"]),
    ("data", .string data)]])]

/-- One byte more than a word. -/
def sampleData : String := "010000000000000000000000000000000000000000000000000000000000000000"

/-- It fails the receipt, whatever its addresses are written as. -/
theorem long_data_fails : ¬∃ codecs txHash,
    extractTrc20Transfers codecs (sampleReceipt sampleData) txHash =
      .ok (expectedTransfers codecs (sampleReceipt sampleData) txHash) := by
  rintro ⟨codecs, txHash, h⟩
  have hfails : extractTrc20Transfers codecs (sampleReceipt sampleData) txHash =
      .error "invalid TRC20 amount at log index 0: uint256 value exceeds 32 bytes" := by rfl
  rw [hfails] at h
  cases h

end AmlReal.Tron.TokenTransfers
