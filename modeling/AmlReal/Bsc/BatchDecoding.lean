import AmlReal.Bsc.Quantities
import AmlReal.Bsc.Transfers

/-! # Decoding ERC-1155 batches

The decoder of `ingestion/transfers.rs` on bytes, with every slice and every
`expect` checked. It computes what the decoder on numbers computes, so it never
stops the process, and it accepts just the data that carry two arrays. -/

namespace AmlReal.Bsc.BatchDecoding
open AmlReal.Foundations AmlReal.Foundations.Checks AmlReal.Foundations.Numerals
open AmlReal.Warehouse.Values AmlReal.Bsc.Model AmlReal.Bsc.Quantities
open AmlReal.Bsc.Transfers (CanonicalRelationship TokenMovement TokenStandard TransferDecodeError
  malformedEvent MAX_ERC1155_BATCH_ITEMS toU32)

/-- How decoding ends other than with a value. -/
inductive Failure where
  | panic (p : Panic)
  | rejected (e : TransferDecodeError)
  deriving DecidableEq

def rejecting {α : Type} : Except TransferDecodeError α → Except Failure α := Except.mapError .rejected

def checkedMul (a b : Nat) : Option Nat := if a * b < u64Size then some (a * b) else none

/-- `data.get(start..stop)` -/
def get (data : List UInt8) (start stop : Nat) : Option (List UInt8) :=
  if start ≤ stop ∧ stop ≤ data.length then some ((data.drop start).take (stop - start)) else none

/-- `data[start..stop]` -/
def index (data : List UInt8) (start stop : Nat) : Except Failure (List UInt8) :=
  context (get data start stop) (.panic .outOfBounds)

def chunksExact (size : Nat) (data : List UInt8) : List (List UInt8) :=
  (List.range (data.length / size)).map fun i => (data.drop (i * size)).take size

def hexBytes : List UInt8 → Option (List UInt8)
  | high :: low :: rest => do
    let h ← nibbleOf high
    let l ← nibbleOf low
    let bytes ← hexBytes rest
    some (((h <<< 4) ||| l) :: bytes)
  | _ => some []

def decodeHexData (value : String) : Option (List UInt8) := do
  let hex ← stripPrefix "0x" value
  if (asBytes hex).length % 2 ≠ 0 then none else hexBytes (asBytes hex)

def HEX : List Char := "0123456789abcdef".toList

def encodeHex (bytes : List UInt8) : Except Failure (List (List Char)) :=
  bytes.mapM fun (byte : UInt8) => do
    let high ← context HEX[(byte >>> 4).toNat]? (.panic .outOfBounds)
    let low ← context HEX[(byte &&& 0x0f).toNat]? (.panic .outOfBounds)
    pure [high, low]

def wordUsizeAt (data : List UInt8) (offset : Nat) : Except Failure (Option Nat) :=
  match (checkedAdd offset 32).bind (get data offset) with
  | none => .ok none
  | some word => do
    let head ← index word 0 24
    if head.any (· ≠ 0) then pure none
    else
      let tail ← index word 24 word.length
      -- `copy_from_slice` into an array of eight bytes
      ensure (tail.length = 8) (.panic .outOfBounds)
      pure (some (leValue tail.reverse))

def wordUsize (data : List UInt8) (index : Nat) : Except Failure (Option Nat) :=
  match checkedMul index 32 with
  | none => .ok none
  | some offset => wordUsizeAt data offset

section
variable (log : CanonicalLog)

def malformed (reason : String) : Failure := .rejected (malformedEvent log reason)

def topicAddress (position : Nat) : Except Failure String := do
  let topic ← context ((log.topics[position]?).bind decodeHexData)
    (malformed log "indexed address topic is missing")
  ensure (topic.length = 32) (malformed log "indexed address topic is not ABI padded")
  let padding ← index topic 0 12
  ensure (¬ padding.any (· ≠ 0)) (malformed log "indexed address topic is not ABI padded")
  let address ← index topic 12 topic.length
  let digits ← encodeHex address
  pure (String.ofList ("0x".toList ++ digits.flatten))

def abiU256Array (data : List UInt8) (offset : Nat) : Except Failure (List EvmU256) := do
  ensure (64 ≤ offset ∧ offset % 32 = 0) (malformed log "array offset is invalid")
  let word ← wordUsizeAt data offset
  let length ← context word (malformed log "array length is invalid")
  ensure (length ≤ MAX_ERC1155_BATCH_ITEMS) (malformed log "ERC-1155 batch exceeds safety limit")
  let start ← context (checkedAdd offset 32) (malformed log "array offset overflow")
  let byteLength ← context (checkedMul length 32) (malformed log "array length overflow")
  let stop ← context (checkedAdd start byteLength) (malformed log "array end overflow")
  let items ← context (get data start stop) (malformed log "array extends beyond event data")
  (chunksExact 32 items).mapM fun word =>
    context (EvmU256.fromBeWord word) (.panic (.expected "chunk is one ABI word"))

def decodeErc1155Batch : Except Failure (List TokenMovement) := do
  ensure (log.topics.length = 4) (malformed log "TransferBatch requires four topics")
  let fromAddress ← topicAddress log 2
  let toAddress ← topicAddress log 3
  let data ← context (decodeHexData log.data) (malformed log "invalid data hex")
  ensure (64 ≤ data.length) (malformed log "TransferBatch ABI head is missing")
  let idsWord ← wordUsize data 0
  let idsOffset ← context idsWord (malformed log "invalid ids offset")
  let valuesWord ← wordUsize data 1
  let valuesOffset ← context valuesWord (malformed log "invalid values offset")
  let ids ← abiU256Array log data idsOffset
  let values ← abiU256Array log data valuesOffset
  ensure (ids.length = values.length) (malformed log "ids and values lengths differ")
  (ids.zip values).zipIdx.mapM fun item => do
    let index ← rejecting (toU32 item.2 "ERC-1155 batch index")
    pure ⟨fromAddress, toAddress, item.1.2.toNat, some item.1.1.toNat, .erc1155, index⟩

end

/-! ## The bytes and their numbers -/

def numbers (bytes : List UInt8) : List Nat := bytes.map UInt8.toNat

theorem get_eq (data : List UInt8) (start length : Nat) :
    Transfers.slice (numbers data) start length =
      ((checkedAdd start length).bind (get data start)).map numbers := by
  unfold Transfers.slice
  cases h : checkedAdd start length with
  | none => rfl
  | some stop =>
    obtain ⟨rfl, _⟩ := checkedAdd_eq_some h
    have hle : start ≤ start + length := Nat.le_add_right _ _
    have hlength : (numbers data).length = data.length := List.length_map _
    simp only [Option.bind_eq_bind, Option.bind_some, get, hle, true_and, hlength,
      Nat.add_sub_cancel_left]
    by_cases hstop : start + length ≤ data.length
    · rw [if_pos hstop, if_pos hstop]; simp [numbers, List.map_take, List.map_drop]
    · rw [if_neg hstop, if_neg hstop]; rfl

theorem nibbles_shift {h l : UInt8} (hh : h.toNat < 16) (hl : l.toNat < 16) :
    ((h <<< 4) ||| l).toNat = 16 * h.toNat + l.toNat := by
  have hall : ∀ h l : Fin 16, ((UInt8.ofNat h.val <<< 4) ||| UInt8.ofNat l.val).toNat =
      16 * h.val + l.val := by decide +kernel
  have := hall ⟨h.toNat, hh⟩ ⟨l.toNat, hl⟩
  rwa [UInt8.ofNat_toNat, UInt8.ofNat_toNat] at this

theorem hexBytes_nibbles {bs out : List UInt8} (heven : bs.length % 2 = 0)
    (h : hexBytes bs = some out) : ∀ b ∈ bs, (nibbleOf b).isSome := by
  induction bs using hexBytes.induct generalizing out with
  | case1 high low rest ih =>
    rw [hexBytes] at h
    obtain ⟨x, hx, h⟩ := Option.bind_eq_some_iff.mp h
    obtain ⟨y, hy, h⟩ := Option.bind_eq_some_iff.mp h
    obtain ⟨bytes, hbytes, _⟩ := Option.bind_eq_some_iff.mp h
    have hrest := ih (by simp only [List.length_cons] at heven; omega) hbytes
    simpa [hx, hy] using hrest
  | case2 bs hshort =>
    cases bs with
    | nil => simp
    | cons b bs =>
      cases bs with
      | nil => simp at heven
      | cons c rest => exact absurd rfl (hshort b c rest)

theorem hexPairs_nibbles {cs : List Char} {out : List Nat} (h : Transfers.hexPairs cs = some out) :
    ∀ c ∈ cs, (HexText.nibble c).isSome := by
  induction cs using Transfers.hexPairs.induct generalizing out with
  | case1 => simp
  | case2 c => cases h
  | case3 high low rest ih =>
    rw [Transfers.hexPairs] at h
    obtain ⟨x, hx, h⟩ := Option.bind_eq_some_iff.mp h
    obtain ⟨y, hy, h⟩ := Option.bind_eq_some_iff.mp h
    obtain ⟨bytes, hbytes, _⟩ := Option.bind_eq_some_iff.mp h
    have hx' : HexText.nibble high = some x := hx
    have hy' : HexText.nibble low = some y := hy
    simpa [hx', hy'] using ih hbytes

theorem hexPairs_ascii {cs : List Char} (h : ∀ c ∈ cs, c.val.toNat ≤ 127) :
    Transfers.hexPairs cs = if cs.length % 2 ≠ 0 then none
      else (hexBytes (cs.map fun c => UInt8.ofNat c.val.toNat)).map numbers := by
  induction cs using Transfers.hexPairs.induct with
  | case1 => rfl
  | case2 c => rfl
  | case3 high low rest ih =>
    have hhigh := nibbleOf_ascii (h high (by simp))
    have hlow := nibbleOf_ascii (h low (by simp))
    have hparity : (high :: low :: rest).length % 2 = rest.length % 2 := by
      simp only [List.length_cons]; omega
    have hh : hexNibble high = HexText.nibble high := rfl
    have hl : hexNibble low = HexText.nibble low := rfl
    rw [Transfers.hexPairs, ih fun c hc => h c (by simp [hc]), hparity, hh, hl, ← hhigh, ← hlow,
      List.map_cons, List.map_cons, hexBytes]
    cases hx : nibbleOf (UInt8.ofNat high.val.toNat) with
    | none => simp
    | some x =>
      cases hy : nibbleOf (UInt8.ofNat low.val.toNat) with
      | none => simp
      | some y =>
        have hxy := nibbles_shift (nibbleOf_lt hx) (nibbleOf_lt hy)
        split
        · rfl
        · cases hexBytes (rest.map fun c => UInt8.ofNat c.val.toNat) with
          | none => rfl
          | some bytes => simp [numbers, hxy]

theorem decodeHexData_eq (value : String) :
    Transfers.decodeHexData value = (decodeHexData value).map numbers := by
  unfold Transfers.decodeHexData decodeHexData
  cases stripPrefix "0x" value with
  | none => rfl
  | some hex =>
    simp only [Option.bind_eq_bind, Option.bind_some]
    by_cases hascii : ∀ c ∈ hex.toList, c.val.toNat ≤ 127
    · rw [hexPairs_ascii hascii, asBytes, asBytes_ascii hascii, List.length_map]
      split <;> rfl
    · -- a character beyond ASCII spoils both readings
      have hleft : Transfers.hexPairs hex.toList = none := by
        cases h : Transfers.hexPairs hex.toList with
        | none => rfl
        | some out => exact absurd (fun c hc => ascii_of_nibble (hexPairs_nibbles h c hc)) hascii
      rw [hleft]
      split
      · rfl
      · rename_i heven
        cases h : hexBytes (asBytes hex) with
        | none => rfl
        | some out =>
          refine absurd (fun c hc => ascii_of_nibbles fun b hb => ?_) hascii
          exact hexBytes_nibbles (by omega) h b (List.mem_flatMap.mpr ⟨c, hc, hb⟩)

theorem numbers_inj {xs ys : List UInt8} (h : numbers xs = numbers ys) : xs = ys :=
  List.map_injective_iff.mpr (fun _ _ => UInt8.toNat_inj.mp) h

theorem hexPairs_encodeHex (bytes : List UInt8) :
    Transfers.hexPairs (Transfers.encodeHex (numbers bytes)) = some (numbers bytes) := by
  have hone : ∀ n : Fin 256, hexNibble (Nat.digitChar (n.val / 16 % 16)) = some (n.val / 16) ∧
      hexNibble (Nat.digitChar (n.val % 16)) = some (n.val % 16) := by decide +kernel
  induction bytes with
  | nil => rfl
  | cons byte bytes ih =>
    obtain ⟨hhigh, hlow⟩ := hone ⟨byte.toNat, byte.toNat_lt⟩
    show Transfers.hexPairs (Nat.digitChar (byte.toNat / 16 % 16) :: Nat.digitChar (byte.toNat % 16) ::
      Transfers.encodeHex (numbers bytes)) = _
    rw [Transfers.hexPairs, hhigh, hlow, ih]
    simp only [Option.bind_eq_bind, Option.bind_some, Nat.div_add_mod]
    rfl

/-- Bytes written in hexadecimal are read back. -/
theorem decodeHexData_encodeHex {value : String} {bytes : List UInt8}
    (h : value.toList = '0' :: 'x' :: Transfers.encodeHex (numbers bytes)) :
    decodeHexData value = some bytes := by
  have hstrip : stripPrefix "0x" value = some (String.ofList (Transfers.encodeHex (numbers bytes))) :=
    stripPrefix_hex.mpr (by simpa using h)
  have hnumbers : Transfers.decodeHexData value = some (numbers bytes) := by
    unfold Transfers.decodeHexData
    rw [hstrip]
    simp only [Option.bind_eq_bind, Option.bind_some, String.toList_ofList, hexPairs_encodeHex]
  rw [decodeHexData_eq] at hnumbers
  obtain ⟨out, hout, heq⟩ := Option.map_eq_some_iff.mp hnumbers
  rw [hout, numbers_inj heq]

theorem get_length {data part : List UInt8} {start stop : Nat} (h : get data start stop = some part) :
    start + part.length = stop ∧ stop ≤ data.length := by
  unfold get at h
  split at h
  · rename_i hbound
    obtain rfl := Option.some.inj h
    rw [List.length_take, List.length_drop]; omega
  · cases h

theorem index_head {bytes : List UInt8} {k : Nat} (h : k ≤ bytes.length) :
    index bytes 0 k = .ok (bytes.take k) := by
  unfold index get
  rw [if_pos ⟨Nat.zero_le k, h⟩]; rfl

theorem index_tail {bytes : List UInt8} {k : Nat} (h : k ≤ bytes.length) :
    index bytes k bytes.length = .ok (bytes.drop k) := by
  unfold index get
  rw [if_pos ⟨h, Nat.le_refl _⟩, List.take_of_length_le (by rw [List.length_drop])]; rfl

theorem wordUsizeAt_eq (data : List UInt8) (offset : Nat) :
    wordUsizeAt data offset = .ok (Transfers.wordUsizeAt (numbers data) offset) := by
  unfold wordUsizeAt Transfers.wordUsizeAt
  rw [get_eq]
  cases hword : (checkedAdd offset 32).bind (get data offset) with
  | none => rfl
  | some word =>
    have hsize : word.length = 32 := by
      obtain ⟨stop, hstop, hget⟩ := Option.bind_eq_some_iff.mp hword
      obtain ⟨rfl, _⟩ := checkedAdd_eq_some hstop
      have := (get_length hget).1
      omega
    have hhead := index_head (show 24 ≤ word.length by omega)
    have htail := index_tail (show 24 ≤ word.length by omega)
    have hany : ((numbers word).take 24).any (· ≠ 0) = (word.take 24).any (· ≠ 0) := by
      simp [numbers, ← List.map_take, List.any_map, Function.comp_def, ← UInt8.toNat_inj]
    have hvalue : ((numbers word).drop 24).foldl (fun n b => 256 * n + b) 0 =
        leValue (word.drop 24).reverse := by
      rw [leValue, List.map_reverse, ofDigits_reverse, numbers, List.map_drop]
    simp only [Option.map_some, Option.bind_eq_bind, Option.bind_some, hhead, htail, ok_bind, hany,
      hvalue]
    split
    · rfl
    · rw [ensure_eq (by rw [List.length_drop]; omega)]; rfl

theorem checkedMul_word {i : Nat} (h : i < 2) : checkedMul i 32 = some (i * 32) :=
  if_pos (Nat.lt_of_lt_of_le (Nat.mul_lt_mul_of_pos_right h (by omega)) (by decide))

theorem wordUsize_eq (data : List UInt8) {i : Nat} (h : i < 2) :
    wordUsize data i = .ok (Transfers.wordUsize (numbers data) i) := by
  unfold wordUsize
  rw [checkedMul_word h]
  exact wordUsizeAt_eq data (i * 32)

theorem encodeHex_eq (bytes : List UInt8) :
    ∃ digits, encodeHex bytes = .ok digits ∧ digits.flatten = Transfers.encodeHex (numbers bytes) := by
  have hone : ∀ n : Fin 256, HEX[((UInt8.ofNat n.val) >>> 4).toNat]? =
        some (Nat.digitChar (n.val / 16 % 16)) ∧
      HEX[((UInt8.ofNat n.val) &&& 0x0f).toNat]? = some (Nat.digitChar (n.val % 16)) := by
    decide +kernel
  induction bytes with
  | nil => exact ⟨[], rfl, rfl⟩
  | cons byte bytes ih =>
    obtain ⟨digits, hdigits, hflat⟩ := ih
    obtain ⟨hhigh, hlow⟩ := hone ⟨byte.toNat, byte.toNat_lt⟩
    rw [UInt8.ofNat_toNat] at hhigh hlow
    refine ⟨[Nat.digitChar (byte.toNat / 16 % 16), Nat.digitChar (byte.toNat % 16)] :: digits, ?_, ?_⟩
    · unfold encodeHex at hdigits ⊢
      rw [List.mapM_cons, hhigh, context_some, ok_bind, hlow, context_some, ok_bind, hdigits]
      rfl
    · rw [List.flatten_cons, hflat]; rfl

/-! ## Words of a slice -/

def chunk (items : List UInt8) (i : Nat) : List UInt8 := (items.drop (i * 32)).take 32

theorem flatten_chunks {n : Nat} {items : List UInt8} (h : items.length = n * 32) :
    ((List.range n).map (chunk items)).flatten = items := by
  induction n generalizing items with
  | zero => exact (List.eq_nil_of_length_eq_zero (by omega)).symm
  | succ n ih =>
    have hrest : (items.drop 32).length = n * 32 := by rw [List.length_drop]; omega
    have hshift : (List.range n).map (chunk items ∘ Nat.succ) =
        (List.range n).map (chunk (items.drop 32)) := by
      refine List.map_congr_left fun i _ => ?_
      show ((items.drop ((i + 1) * 32)).take 32) = _
      rw [chunk, List.drop_drop]
      congr 2
      omega
    rw [List.range_succ_eq_map, List.map_cons, List.map_map, List.flatten_cons, hshift, ih hrest]
    show (items.drop (0 * 32)).take 32 ++ _ = _
    rw [Nat.zero_mul, List.drop_zero, List.take_append_drop]

theorem length_chunk {n i : Nat} {items : List UInt8} (h : items.length = n * 32) (hi : i < n) :
    (chunk items i).length = 32 := by
  rw [chunk, List.length_take, List.length_drop]
  have := Nat.mul_le_mul_right 32 hi
  omega

def wordAt (items : List UInt8) (i : Nat) : EvmU256 := EvmU256.ofBytes (chunk items i).reverse

theorem toNat_wordAt {n i : Nat} {items : List UInt8} (h : items.length = n * 32) (hi : i < n) :
    (wordAt items i).toNat = leValue (chunk items i).reverse :=
  EvmU256.toNat_ofBytes (by rw [List.length_reverse, length_chunk h hi])

/-- The chunks of a slice of words are words, so none of them is refused. -/
theorem readWords_ok {n : Nat} {items : List UInt8} (h : items.length = n * 32) :
    (chunksExact 32 items).mapM (fun word =>
      context (EvmU256.fromBeWord word) (Failure.panic (.expected "chunk is one ABI word"))) =
      .ok ((List.range n).map (wordAt items)) := by
  have hchunks : chunksExact 32 items = (List.range n).map (chunk items) := by
    rw [chunksExact, h, Nat.mul_div_cancel _ (by omega)]; rfl
  have hword : ∀ i ∈ List.range n, EvmU256.fromBeWord (chunk items i) = some (wordAt items i) := by
    intro i hi
    have hi := List.mem_range.mp hi
    refine fromBeWord_some.mpr ⟨length_chunk h hi, ?_⟩
    rw [toNat_wordAt h hi, leValue, List.map_reverse, ofDigits_reverse]; rfl
  rw [hchunks]
  generalize List.range n = is at hword
  induction is with
  | nil => rfl
  | cons i is ih =>
    rw [List.map_cons, List.mapM_cons, hword i (by simp), context_some, ok_bind,
      ih fun j hj => hword j (by simp [hj])]
    rfl

theorem numbers_wordAt {n : Nat} {items : List UInt8} (h : items.length = n * 32)
    (hn : n * 32 < u64Size) : (List.range n).filterMap (Transfers.wordU256 (numbers items)) =
      ((List.range n).map (wordAt items)).map EvmU256.toNat := by
  have hword : ∀ i ∈ List.range n, Transfers.wordU256 (numbers items) i =
      some (wordAt items i).toNat := by
    intro i hi
    have hi := List.mem_range.mp hi
    have hstop : i * 32 + 32 ≤ n * 32 := by
      have := Nat.mul_le_mul_right 32 hi
      omega
    have hadd : checkedAdd (i * 32) 32 = some (i * 32 + 32) := if_pos (by omega)
    have hget : get items (i * 32) (i * 32 + 32) = some (chunk items i) := by
      unfold get chunk; rw [if_pos (by omega), Nat.add_sub_cancel_left]
    unfold Transfers.wordU256
    rw [get_eq, hadd, Option.bind_some, hget, toNat_wordAt h hi]
    have hlength : (numbers (chunk items i)).length = 32 := by
      rw [numbers, List.length_map, length_chunk h hi]
    show Transfers.fromBeWord (numbers (chunk items i)) = _
    rw [Transfers.fromBeWord, if_pos hlength, leValue, List.map_reverse, ofDigits_reverse]; rfl
  rw [List.filterMap_congr hword, List.map_map]
  exact congrFun List.filterMap_eq_map (List.range n)

/-! ## The decoder on numbers -/

theorem rejecting_bind {α β : Type} (r : Except TransferDecodeError α)
    (f : α → Except TransferDecodeError β) :
    rejecting (r >>= f) = rejecting r >>= fun a => rejecting (f a) := by
  cases r <;> rfl

theorem rejecting_context {α : Type} (value : Option α) (e : TransferDecodeError) :
    rejecting (context value e) = context value (.rejected e) := by
  cases value <;> rfl

theorem rejecting_ensure (c : Prop) [Decidable c] (e : TransferDecodeError) :
    rejecting (ensure c e) = ensure c (.rejected e) := by
  unfold ensure
  split <;> rfl

theorem rejecting_mapM {α β : Type} (f : α → Except TransferDecodeError β) (xs : List α) :
    rejecting (xs.mapM f) = xs.mapM fun x => rejecting (f x) := by
  induction xs with
  | nil => rfl
  | cons x xs ih =>
    rw [List.mapM_cons, List.mapM_cons, rejecting_bind]
    congr 1; funext y
    rw [rejecting_bind, ih]
    rfl

section
variable (log : CanonicalLog)

theorem topicAddress_eq (position : Nat) :
    topicAddress log position = rejecting (Transfers.topicAddress log position) := by
  unfold topicAddress Transfers.topicAddress
  have htopic : (log.topics[position]?).bind Transfers.decodeHexData =
      ((log.topics[position]?).bind decodeHexData).map numbers := by
    cases log.topics[position]? with
    | none => rfl
    | some topic => exact decodeHexData_eq topic
  rw [htopic, rejecting_bind, rejecting_context]
  cases (log.topics[position]?).bind decodeHexData with
  | none => rfl
  | some topic =>
    have hlength : (numbers topic).length = topic.length := List.length_map _
    simp only [Option.map_some, context_some, ok_bind, rejecting_bind, rejecting_ensure, hlength]
    by_cases hsize : topic.length = 32
    · have hpadding := index_head (show 12 ≤ topic.length by omega)
      have haddress := index_tail (show 12 ≤ topic.length by omega)
      have hany : ((numbers topic).take 12).any (· ≠ 0) = (topic.take 12).any (· ≠ 0) := by
        simp [numbers, ← List.map_take, List.any_map, Function.comp_def, ← UInt8.toNat_inj]
      obtain ⟨digits, hdigits, hflat⟩ := encodeHex_eq (topic.drop 12)
      rw [ensure_eq hsize, ok_bind, hpadding, ok_bind, hany, haddress]
      simp only [hsize, true_and, malformed]
      by_cases hzero : ¬ (topic.take 12).any (· ≠ 0) = true
      · rw [ensure_eq hzero, ok_bind, ok_bind, ok_bind, hdigits, ok_bind, hflat]
        simp [numbers, List.map_drop, rejecting]
        rfl
      · unfold ensure
        rw [if_neg hzero]
        rfl
    · have hboth : ¬ (topic.length = 32 ∧ ¬ ((numbers topic).take 12).any (· ≠ 0) = true) :=
        fun h => hsize h.1
      unfold ensure
      rw [if_neg hsize, if_neg hboth]
      rfl

theorem abiU256Array_eq (data : List UInt8) (offset : Nat) :
    (abiU256Array log data offset).map (List.map EvmU256.toNat) =
      rejecting (Transfers.abiU256Array log (numbers data) offset) := by
  unfold abiU256Array Transfers.abiU256Array
  simp only [wordUsizeAt_eq, rejecting_bind, rejecting_ensure, rejecting_context, malformed, ok_bind]
  by_cases hoffset : 64 ≤ offset ∧ offset % 32 = 0
  · rw [ensure_eq hoffset, ok_bind, ok_bind]
    cases Transfers.wordUsizeAt (numbers data) offset with
    | none => rfl
    | some length =>
      simp only [context_some, ok_bind]
      by_cases hlimit : length ≤ MAX_ERC1155_BATCH_ITEMS
      · have hmax : MAX_ERC1155_BATCH_ITEMS = 4096 := rfl
        have hbytes : length * 32 < u64Size := by
          have : u64Size = 2 ^ 64 := rfl
          omega
        have hmul : checkedMul length 32 = some (length * 32) := if_pos hbytes
        rw [ensure_eq hlimit, ok_bind, ok_bind, hmul]
        cases checkedAdd offset 32 with
        | none => rfl
        | some start =>
          simp only [context_some, ok_bind, ensure_eq hbytes, get_eq]
          cases hstop : checkedAdd start (length * 32) with
          | none => rfl
          | some stop =>
            simp only [context_some, ok_bind, Option.bind_some]
            cases hget : get data start stop with
            | none => rfl
            | some items =>
              have hsize : items.length = length * 32 := by
                obtain ⟨rfl, _⟩ := checkedAdd_eq_some hstop
                have := (get_length hget).1
                omega
              simp only [Option.map_some, context_some, ok_bind, readWords_ok hsize]
              rw [numbers_wordAt hsize hbytes]
              rfl
      · unfold ensure
        rw [if_neg hlimit]
        rfl
  · unfold ensure
    rw [if_neg hoffset]
    rfl

/-- On bytes and on numbers the decoder does the same; it never stops the process. -/
theorem decodeErc1155Batch_eq :
    decodeErc1155Batch log = rejecting (Transfers.decodeErc1155Batch log) := by
  unfold decodeErc1155Batch Transfers.decodeErc1155Batch Transfers.eventData
  simp only [topicAddress_eq, rejecting_bind, rejecting_ensure, rejecting_context, malformed,
    decodeHexData_eq]
  congr 1; funext _
  congr 1; funext fromAddress
  congr 1; funext toAddress
  cases decodeHexData log.data with
  | none => rfl
  | some data =>
    have hlength : (numbers data).length = data.length := List.length_map _
    simp only [Option.map_some, context_some, ok_bind, hlength,
      wordUsize_eq data (show 0 < 2 by omega), wordUsize_eq data (show 1 < 2 by omega)]
    congr 1; funext _
    congr 1; funext idsOffset
    congr 1; funext valuesOffset
    rw [← abiU256Array_eq, ← abiU256Array_eq]
    cases abiU256Array log data idsOffset with
    | error e => rfl
    | ok ids =>
      cases abiU256Array log data valuesOffset with
      | error e => rfl
      | ok values =>
        have hids : (ids.map EvmU256.toNat).length = ids.length := List.length_map _
        have hvalues : (values.map EvmU256.toNat).length = values.length := List.length_map _
        simp only [Except.map, ok_bind, hids, hvalues]
        congr 1; funext _
        rw [rejecting_mapM, List.zip_map, List.zipIdx_map, List.mapM_map]
        refine congrArg (fun f => List.mapM f _) (funext fun item => ?_)
        simp only [Function.comp_apply, rejecting_bind]
        rfl

end

/-! ## What data carry -/

/-- A number as an ABI word. -/
def word (n : Nat) : List UInt8 := (toLeBytes 32 n).reverse

/-- The ABI encoding of an array of words. -/
def encodeArray (xs : List Nat) : List UInt8 := word xs.length ++ xs.flatMap word

theorem length_word (n : Nat) : (word n).length = 32 := by simp [word]

theorem length_words (xs : List Nat) : (xs.flatMap word).length = xs.length * 32 := by
  induction xs with
  | nil => rfl
  | cons x xs ih => rw [List.flatMap_cons, List.length_append, length_word, ih, List.length_cons]; omega

theorem length_encodeArray (xs : List Nat) : (encodeArray xs).length = 32 + xs.length * 32 := by
  rw [encodeArray, List.length_append, length_word, length_words]

theorem leValue_word {n : Nat} (h : n < 2 ^ 256) : leValue (word n).reverse = n := by
  rw [word, List.reverse_reverse, leValue_toLeBytes]
  exact Nat.mod_eq_of_lt h

/-- A word of bytes is the encoding of its number. -/
theorem word_leValue {bytes : List UInt8} (h : bytes.length = 32) :
    word (leValue bytes.reverse) = bytes := by
  have hbound : leValue bytes.reverse < 2 ^ 256 := by
    have hlt := leValue_lt bytes.reverse
    rw [List.length_reverse, h] at hlt
    exact hlt
  have hreverse : (word (leValue bytes.reverse)).reverse = bytes.reverse :=
    leValue_inj (by simp [length_word, h]) (leValue_word hbound)
  exact List.reverse_injective hreverse

/-- The part stands at the offset. -/
def At (data : List UInt8) (offset : Nat) (part : List UInt8) : Prop :=
  offset ≤ data.length ∧ part <+: data.drop offset

theorem at_get {data part : List UInt8} {offset : Nat} :
    get data offset (offset + part.length) = some part ↔ At data offset part := by
  unfold At get
  rw [Nat.add_sub_cancel_left]
  constructor
  · intro h
    split at h
    · rename_i hbound
      exact ⟨by omega, List.prefix_iff_eq_take.mpr (Option.some.inj h).symm⟩
    · cases h
  · rintro ⟨hoffset, hstart⟩
    have hlength := hstart.length_le
    rw [List.length_drop] at hlength
    rw [if_pos (by omega), ← List.prefix_iff_eq_take.mp hstart]

theorem At.length_le {data part : List UInt8} {offset : Nat} (h : At data offset part) :
    offset + part.length ≤ data.length := (get_length (at_get.mpr h)).2

theorem at_append {data a b : List UInt8} {offset : Nat} :
    At data offset (a ++ b) ↔ At data offset a ∧ At data (offset + a.length) b := by
  constructor
  · intro h
    have hlength := h.length_le
    rw [List.length_append] at hlength
    obtain ⟨rest, hrest⟩ := h.2
    refine ⟨⟨h.1, ⟨b ++ rest, by rw [← hrest, List.append_assoc]⟩⟩, by omega, ⟨rest, ?_⟩⟩
    rw [← List.drop_drop, ← hrest, List.append_assoc, List.drop_left]
  · rintro ⟨ha, hb⟩
    obtain ⟨rest, hrest⟩ := ha.2
    obtain ⟨last, hlast⟩ := hb.2
    rw [← List.drop_drop, ← hrest, List.drop_left] at hlast
    exact ⟨ha.1, last, by rw [← hrest, ← hlast, List.append_assoc]⟩

theorem at_middle (before part after : List UInt8) :
    At (before ++ (part ++ after)) before.length part :=
  ⟨by simp, after, by rw [List.drop_left]⟩

/-! ### Lengths and offsets -/

/-- The low 64 bits of a word and what stands above them. -/
theorem word_split {w : List UInt8} (hw : w.length = 32) :
    leValue w.reverse = leValue (w.drop 24).reverse + 2 ^ 64 * leValue (w.take 24).reverse ∧
      leValue (w.drop 24).reverse < 2 ^ 64 := by
  have happend := leValue_append (w.drop 24).reverse (w.take 24).reverse
  rw [← List.reverse_append, List.take_append_drop, List.length_reverse, List.length_drop, hw] at happend
  have hlt := leValue_lt (w.drop 24).reverse
  rw [List.length_reverse, List.length_drop, hw] at hlt
  exact ⟨happend, hlt⟩

theorem any_high {w : List UInt8} :
    (w.take 24).any (· ≠ 0) = true ↔ leValue (w.take 24).reverse ≠ 0 := by
  rw [← any_ne_zero, List.any_reverse]

theorem wordUsizeAt_word {data w : List UInt8} (hw : w.length = 32) {offset : Nat}
    (hget : (checkedAdd offset 32).bind (get data offset) = some w) :
    wordUsizeAt data offset = .ok (if leValue (w.take 24).reverse ≠ 0 then none
      else some (leValue (w.drop 24).reverse)) := by
  unfold wordUsizeAt
  rw [hget]
  simp only [index_head (show 24 ≤ w.length by omega), index_tail (show 24 ≤ w.length by omega), ok_bind]
  by_cases hany : (w.take 24).any (· ≠ 0) = true
  · rw [if_pos hany, if_pos (any_high.mp hany)]; rfl
  · rw [if_neg hany, if_neg fun hne => hany (any_high.mpr hne),
      ensure_eq (by rw [List.length_drop]; omega), ok_bind]
    rfl

/-- A length or an offset is read only where its word stands and fits 64 bits. -/
theorem wordUsizeAt_at {data : List UInt8} {offset n : Nat}
    (h : wordUsizeAt data offset = .ok (some n)) : At data offset (word n) := by
  cases hget : (checkedAdd offset 32).bind (get data offset) with
  | none =>
    unfold wordUsizeAt at h
    rw [hget] at h
    cases Except.ok.inj h
  | some w =>
    obtain ⟨stop, hstop, hw⟩ := Option.bind_eq_some_iff.mp hget
    obtain ⟨rfl, _⟩ := checkedAdd_eq_some hstop
    have hlength : w.length = 32 := by have := (get_length hw).1; omega
    rw [wordUsizeAt_word hlength hget] at h
    have hvalue := Except.ok.inj h
    split at hvalue
    · cases hvalue
    · rename_i hzero
      have hsplit := (word_split hlength).1
      rw [not_ne_iff.mp hzero, Nat.mul_zero, Nat.add_zero, Option.some.inj hvalue] at hsplit
      rw [← hsplit, word_leValue hlength, ← at_get, hlength]
      exact hw

theorem wordUsizeAt_of_at {data : List UInt8} (hdata : data.length < u64Size) {offset n : Nat}
    (h : At data offset (word n)) (hn : n < u64Size) : wordUsizeAt data offset = .ok (some n) := by
  have hsize : u64Size = 2 ^ 64 := rfl
  have hbound := h.length_le
  rw [length_word] at hbound
  have hget : (checkedAdd offset 32).bind (get data offset) = some (word n) := by
    rw [checkedAdd, if_pos (by omega), Option.bind_some]
    have hword := at_get.mpr h
    rwa [length_word] at hword
  obtain ⟨hsplit, hlow⟩ := word_split (length_word n)
  rw [leValue_word (by omega)] at hsplit
  have hzero : leValue ((word n).take 24).reverse = 0 := by omega
  rw [wordUsizeAt_word (length_word n) hget, if_neg (not_ne_iff.mpr hzero),
    show leValue ((word n).drop 24).reverse = n by omega]

/-! ### Arrays -/

theorem words_items {n : Nat} {items : List UInt8} (h : items.length = n * 32) :
    (((List.range n).map (wordAt items)).map EvmU256.toNat).flatMap word = items := by
  have hwords : ∀ i ∈ List.range n, word (wordAt items i).toNat = chunk items i := by
    intro i hi
    have hi := List.mem_range.mp hi
    rw [toNat_wordAt h hi, word_leValue (length_chunk h hi)]
  calc (((List.range n).map (wordAt items)).map EvmU256.toNat).flatMap word
      = ((List.range n).map fun i => word (wordAt items i).toNat).flatten := by
        rw [List.flatMap_def, List.map_map, List.map_map]; rfl
    _ = ((List.range n).map (chunk items)).flatten := by rw [List.map_congr_left hwords]
    _ = items := flatten_chunks h

theorem words_inj {us vs : List EvmU256}
    (h : (us.map EvmU256.toNat).flatMap word = (vs.map EvmU256.toNat).flatMap word) : us = vs := by
  induction us generalizing vs with
  | nil =>
    cases vs with
    | nil => rfl
    | cons v vs =>
      have hlength := congrArg List.length h
      rw [length_words, length_words] at hlength
      simp at hlength
  | cons u us ih =>
    cases vs with
    | nil =>
      have hlength := congrArg List.length h
      rw [length_words, length_words] at hlength
      simp at hlength
    | cons v vs =>
      obtain ⟨hword, hrest⟩ := List.append_inj h (by rw [length_word, length_word])
      have hvalue := congrArg (fun w => leValue w.reverse) hword
      simp only [leValue_word u.toNat_lt, leValue_word v.toNat_lt] at hvalue
      rw [EvmU256.ext_toNat hvalue, ih hrest]

section
variable (log : CanonicalLog)

/-- An array is accepted only where its encoding stands. -/
theorem abiU256Array_at {data : List UInt8} {offset : Nat} {words : List EvmU256}
    (h : abiU256Array log data offset = .ok words) :
    64 ≤ offset ∧ offset % 32 = 0 ∧ words.length ≤ MAX_ERC1155_BATCH_ITEMS ∧
      At data offset (encodeArray (words.map EvmU256.toNat)) := by
  obtain ⟨_, hoffset, h⟩ := bind_ok h
  obtain ⟨found, hword, h⟩ := bind_ok h
  obtain ⟨length, hlength, h⟩ := bind_ok h
  obtain ⟨_, hlimit, h⟩ := bind_ok h
  obtain ⟨start, hstart, h⟩ := bind_ok h
  obtain ⟨byteLength, hbytes, h⟩ := bind_ok h
  obtain ⟨stop, hstop, h⟩ := bind_ok h
  obtain ⟨items, hitems, hwords⟩ := bind_ok h
  rw [context_ok hlength] at hword
  obtain ⟨rfl, _⟩ := checkedAdd_eq_some (context_ok hstart)
  obtain rfl : byteLength = length * 32 := by
    have hmul := context_ok hbytes
    unfold checkedMul at hmul
    split at hmul
    · exact (Option.some.inj hmul).symm
    · cases hmul
  obtain ⟨rfl, _⟩ := checkedAdd_eq_some (context_ok hstop)
  have hget := context_ok hitems
  have hsize : items.length = length * 32 := by have := (get_length hget).1; omega
  rw [readWords_ok hsize] at hwords
  obtain rfl := Except.ok.inj hwords
  obtain ⟨hmin, haligned⟩ := ensure_ok hoffset
  refine ⟨hmin, haligned, by simpa using ensure_ok hlimit, ?_⟩
  rw [encodeArray, words_items hsize, List.length_map, List.length_map, List.length_range, at_append,
    length_word]
  exact ⟨wordUsizeAt_at hword, at_get.mp (hsize ▸ hget)⟩

theorem abiU256Array_of_at {data : List UInt8} (hdata : data.length < u64Size) {offset : Nat}
    {words : List EvmU256} (hoffset : 64 ≤ offset ∧ offset % 32 = 0)
    (hlimit : words.length ≤ MAX_ERC1155_BATCH_ITEMS)
    (h : At data offset (encodeArray (words.map EvmU256.toNat))) :
    abiU256Array log data offset = .ok words := by
  have hmax : MAX_ERC1155_BATCH_ITEMS = 4096 := rfl
  have hsize : u64Size = 2 ^ 64 := rfl
  have hbound := h.length_le
  rw [length_encodeArray, List.length_map] at hbound
  rw [encodeArray, List.length_map, at_append, length_word] at h
  obtain ⟨hword, hitems⟩ := h
  have hlength : ((words.map EvmU256.toNat).flatMap word).length = words.length * 32 := by
    rw [length_words, List.length_map]
  have hget := at_get.mpr hitems
  rw [hlength] at hget
  unfold abiU256Array
  rw [ensure_eq hoffset, ok_bind, wordUsizeAt_of_at hdata hword (by omega), ok_bind, context_some,
    ok_bind, ensure_eq hlimit, ok_bind, checkedAdd, if_pos (by omega), context_some, ok_bind,
    checkedMul, if_pos (by omega), context_some, ok_bind, checkedAdd, if_pos (by omega), context_some,
    ok_bind, hget, context_some, ok_bind, readWords_ok hlength]
  exact congrArg Except.ok (words_inj (words_items hlength))

end

/-! ## Batches -/

/-- The data refer to an array of ids and an array of values. -/
structure Carries (data : List UInt8) (ids values : List Nat) : Prop where
  heads : ∃ idsOffset valuesOffset, At data 0 (word idsOffset) ∧ At data 32 (word valuesOffset) ∧
    64 ≤ idsOffset ∧ idsOffset % 32 = 0 ∧ At data idsOffset (encodeArray ids) ∧
    64 ≤ valuesOffset ∧ valuesOffset % 32 = 0 ∧ At data valuesOffset (encodeArray values)
  length : ids.length = values.length
  limit : ids.length ≤ MAX_ERC1155_BATCH_ITEMS
  idsFit : ∀ n ∈ ids, n < 2 ^ 256
  valuesFit : ∀ n ∈ values, n < 2 ^ 256

/-- A log with the topics of a batch and these data. -/
structure BatchLog (log : CanonicalLog) (data : List UInt8) (sender recipient : String) : Prop where
  topics : log.topics.length = 4
  sender : topicAddress log 2 = .ok sender
  recipient : topicAddress log 3 = .ok recipient
  data : decodeHexData log.data = some data

/-- The movements of a batch, numbered from zero. -/
def pairs (sender recipient : String) (ids values : List Nat) : List TokenMovement :=
  (ids.zip values).zipIdx.map fun item =>
    ⟨sender, recipient, item.1.2, some item.1.1, .erc1155, item.2⟩

theorem movements_ok {sender recipient : String} {items : List ((EvmU256 × EvmU256) × Nat)}
    (h : ∀ item ∈ items, item.2 < 2 ^ 32) :
    items.mapM (fun item => do
      let index ← rejecting (toU32 item.2 "ERC-1155 batch index")
      pure (⟨sender, recipient, item.1.2.toNat, some item.1.1.toNat, .erc1155, index⟩ :
        TokenMovement)) = Except.ok (items.map fun item =>
          ⟨sender, recipient, item.1.2.toNat, some item.1.1.toNat, .erc1155, item.2⟩) := by
  induction items with
  | nil => rfl
  | cons item items ih =>
    have hindex : rejecting (toU32 item.2 "ERC-1155 batch index") = .ok item.2 := by
      rw [toU32, if_pos (h item (by simp))]; rfl
    rw [List.mapM_cons, hindex, ok_bind, ih fun i hi => h i (by simp [hi])]
    rfl

theorem pairs_words (sender recipient : String) (ids values : List EvmU256) :
    ((ids.zip values).zipIdx.map fun item => (⟨sender, recipient, item.1.2.toNat,
      some item.1.1.toNat, .erc1155, item.2⟩ : TokenMovement)) =
      pairs sender recipient (ids.map EvmU256.toNat) (values.map EvmU256.toNat) := by
  rw [pairs, List.zip_map, List.zipIdx_map, List.map_map]
  rfl

theorem zipIdx_lt {ids values : List EvmU256} (h : ids.length ≤ MAX_ERC1155_BATCH_ITEMS) :
    ∀ item ∈ (ids.zip values).zipIdx, item.2 < 2 ^ 32 := by
  intro item hitem
  have hmax : MAX_ERC1155_BATCH_ITEMS = 4096 := rfl
  have hlt := (List.mem_zipIdx hitem).2.1
  rw [List.length_zip] at hlt
  omega

theorem exists_words {xs : List Nat} (h : ∀ n ∈ xs, n < 2 ^ 256) :
    ∃ words : List EvmU256, words.map EvmU256.toNat = xs := by
  induction xs with
  | nil => exact ⟨[], rfl⟩
  | cons x xs ih =>
    obtain ⟨u, hu⟩ := exists_toNat (h x (by simp))
    obtain ⟨words, hwords⟩ := ih fun n hn => h n (by simp [hn])
    exact ⟨u :: words, by rw [List.map_cons, hu, hwords]⟩

/-- Only data that carry two arrays of one length are accepted. -/
theorem decodeErc1155Batch_carries {log : CanonicalLog} {movements : List TokenMovement}
    (h : decodeErc1155Batch log = .ok movements) :
    ∃ data sender recipient ids values, BatchLog log data sender recipient ∧
      Carries data ids values ∧ movements = pairs sender recipient ids values := by
  obtain ⟨_, htopics, h⟩ := bind_ok h
  obtain ⟨sender, hsender, h⟩ := bind_ok h
  obtain ⟨recipient, hrecipient, h⟩ := bind_ok h
  obtain ⟨data, hdata, h⟩ := bind_ok h
  obtain ⟨_, _, h⟩ := bind_ok h
  obtain ⟨idsWord, hidsWord, h⟩ := bind_ok h
  obtain ⟨idsOffset, hidsOffset, h⟩ := bind_ok h
  obtain ⟨valuesWord, hvaluesWord, h⟩ := bind_ok h
  obtain ⟨valuesOffset, hvaluesOffset, h⟩ := bind_ok h
  obtain ⟨ids, hids, h⟩ := bind_ok h
  obtain ⟨values, hvalues, h⟩ := bind_ok h
  obtain ⟨_, hlength, h⟩ := bind_ok h
  obtain ⟨hidsMin, hidsAligned, hidsLimit, hidsAt⟩ := abiU256Array_at log hids
  obtain ⟨hvaluesMin, hvaluesAligned, _, hvaluesAt⟩ := abiU256Array_at log hvalues
  rw [movements_ok (zipIdx_lt hidsLimit), pairs_words] at h
  have hfit : ∀ us : List EvmU256, ∀ n ∈ us.map EvmU256.toNat, n < 2 ^ 256 := fun us n hn => by
    obtain ⟨u, _, rfl⟩ := List.mem_map.mp hn
    exact u.toNat_lt
  rw [context_ok hidsOffset] at hidsWord
  rw [context_ok hvaluesOffset] at hvaluesWord
  have hidsHead : At data 0 (word idsOffset) := wordUsizeAt_at hidsWord
  have hvaluesHead : At data 32 (word valuesOffset) := wordUsizeAt_at hvaluesWord
  exact ⟨data, sender, recipient, _, _, ⟨ensure_ok htopics, hsender, hrecipient, context_ok hdata⟩,
    ⟨⟨idsOffset, valuesOffset, hidsHead, hvaluesHead, hidsMin, hidsAligned, hidsAt, hvaluesMin,
      hvaluesAligned, hvaluesAt⟩, by simpa using ensure_ok hlength, by simpa using hidsLimit,
      hfit ids, hfit values⟩, (Except.ok.inj h).symm⟩

/-- Data that carry two arrays of one length are decoded to their pairs. -/
theorem decodeErc1155Batch_of_carries {log : CanonicalLog} {data : List UInt8}
    {sender recipient : String} {ids values : List Nat} (hlog : BatchLog log data sender recipient)
    (hdata : data.length < u64Size) (h : Carries data ids values) :
    decodeErc1155Batch log = .ok (pairs sender recipient ids values) := by
  obtain ⟨idsOffset, valuesOffset, hidsHead, hvaluesHead, hidsMin, hidsAligned, hidsAt, hvaluesMin,
    hvaluesAligned, hvaluesAt⟩ := h.heads
  obtain ⟨us, rfl⟩ := exists_words h.idsFit
  obtain ⟨vs, rfl⟩ := exists_words h.valuesFit
  have hlength : us.length = vs.length := by simpa using h.length
  have hlimit : us.length ≤ MAX_ERC1155_BATCH_ITEMS := by simpa using h.limit
  have hheads := hvaluesHead.length_le
  rw [length_word] at hheads
  have hids : wordUsize data 0 = .ok (some idsOffset) :=
    wordUsizeAt_of_at hdata hidsHead (Nat.lt_of_le_of_lt hidsAt.1 hdata)
  have hvalues : wordUsize data 1 = .ok (some valuesOffset) :=
    wordUsizeAt_of_at hdata hvaluesHead (Nat.lt_of_le_of_lt hvaluesAt.1 hdata)
  unfold decodeErc1155Batch
  rw [ensure_eq hlog.topics, ok_bind, hlog.sender, ok_bind, hlog.recipient, ok_bind, hlog.data,
    context_some, ok_bind, ensure_eq (by omega), ok_bind, hids, ok_bind, context_some, ok_bind, hvalues,
    ok_bind, context_some, ok_bind,
    abiU256Array_of_at log hdata ⟨hidsMin, hidsAligned⟩ hlimit hidsAt, ok_bind,
    abiU256Array_of_at log hdata ⟨hvaluesMin, hvaluesAligned⟩ (hlength ▸ hlimit) hvaluesAt, ok_bind,
    ensure_eq hlength, ok_bind, movements_ok (zipIdx_lt hlimit), pairs_words]

/-! ## The standard encoding -/

/-- A batch and the layout of its encoding: which array comes first, and the bytes around them. -/
structure Batch where
  ids : List Nat
  values : List Nat
  valuesFirst : Bool
  before : List UInt8
  between : List UInt8
  after : List UInt8
  length : ids.length = values.length
  limit : ids.length ≤ MAX_ERC1155_BATCH_ITEMS
  idsFit : ∀ n ∈ ids, n < 2 ^ 256
  valuesFit : ∀ n ∈ values, n < 2 ^ 256
  beforeAligned : before.length % 32 = 0
  betweenAligned : between.length % 32 = 0

namespace Batch
variable (b : Batch)

def first : List Nat := if b.valuesFirst then b.values else b.ids
def second : List Nat := if b.valuesFirst then b.ids else b.values
def firstOffset : Nat := 64 + b.before.length
def secondOffset : Nat := b.firstOffset + (encodeArray b.first).length + b.between.length
def idsOffset : Nat := if b.valuesFirst then b.secondOffset else b.firstOffset
def valuesOffset : Nat := if b.valuesFirst then b.firstOffset else b.secondOffset

/-- The two offsets, then the arrays. -/
def data : List UInt8 :=
  word b.idsOffset ++ (word b.valuesOffset ++ (b.before ++ (encodeArray b.first ++
    (b.between ++ (encodeArray b.second ++ b.after)))))

theorem at_first : At b.data b.firstOffset (encodeArray b.first) := by
  have h := at_middle (word b.idsOffset ++ (word b.valuesOffset ++ b.before)) (encodeArray b.first)
    (b.between ++ (encodeArray b.second ++ b.after))
  simp only [List.length_append, length_word, List.append_assoc] at h
  rw [firstOffset, show 64 + b.before.length = 32 + (32 + b.before.length) by omega]
  exact h

theorem at_second : At b.data b.secondOffset (encodeArray b.second) := by
  have h := at_middle (word b.idsOffset ++ (word b.valuesOffset ++ (b.before ++
    (encodeArray b.first ++ b.between)))) (encodeArray b.second) b.after
  simp only [List.length_append, length_word, List.append_assoc] at h
  rw [secondOffset, firstOffset, show 64 + b.before.length + (encodeArray b.first).length +
    b.between.length = 32 + (32 + (b.before.length + ((encodeArray b.first).length +
      b.between.length))) by omega]
  exact h

theorem first_aligned : 64 ≤ b.firstOffset ∧ b.firstOffset % 32 = 0 := by
  have := b.beforeAligned
  rw [firstOffset]
  omega

theorem second_aligned : 64 ≤ b.secondOffset ∧ b.secondOffset % 32 = 0 := by
  have := b.first_aligned
  have := b.betweenAligned
  rw [secondOffset, length_encodeArray]
  omega

theorem carries : Carries b.data b.ids b.values := by
  have hhead : At b.data 0 (word b.idsOffset) := ⟨Nat.zero_le _, _, rfl⟩
  have hnext : At b.data 32 (word b.valuesOffset) := by
    have h := at_middle (word b.idsOffset) (word b.valuesOffset) (b.before ++ (encodeArray b.first ++
      (b.between ++ (encodeArray b.second ++ b.after))))
    rw [length_word] at h
    exact h
  have hfirst := b.at_first
  have hsecond := b.at_second
  have hf := b.first_aligned
  have hs := b.second_aligned
  refine ⟨⟨b.idsOffset, b.valuesOffset, hhead, hnext, ?_⟩, b.length, b.limit, b.idsFit, b.valuesFit⟩
  unfold idsOffset valuesOffset
  cases hv : b.valuesFirst with
  | true =>
    simp only [first, second, hv, if_true] at hfirst hsecond ⊢
    exact ⟨hs.1, hs.2, hsecond, hf.1, hf.2, hfirst⟩
  | false =>
    simp only [first, second, hv, Bool.false_eq_true, if_false] at hfirst hsecond ⊢
    exact ⟨hf.1, hf.2, hfirst, hs.1, hs.2, hsecond⟩

end Batch

/-- The standard encoding of a batch is decoded to its pairs in order. On any data the decoder
neither stops the process nor accepts a length, an offset or an array that does not fit. -/
theorem batch_round_trip {log : CanonicalLog} {b : Batch} {sender recipient : String}
    (hlog : BatchLog log b.data sender recipient) (hdata : b.data.length < u64Size) :
    Transfers.decodeErc1155Batch log = .ok (pairs sender recipient b.ids b.values) ∧
      decodeErc1155Batch log = .ok (pairs sender recipient b.ids b.values) ∧
      ∀ other : CanonicalLog,
        (∀ p, decodeErc1155Batch other ≠ .error (.panic p)) ∧
        decodeErc1155Batch other = rejecting (Transfers.decodeErc1155Batch other) ∧
        ∀ movements, decodeErc1155Batch other = .ok movements →
          ∃ data sender recipient ids values, BatchLog other data sender recipient ∧
            Carries data ids values ∧ movements = pairs sender recipient ids values := by
  have hok := decodeErc1155Batch_of_carries hlog hdata b.carries
  refine ⟨?_, hok, fun other => ⟨fun p hp => ?_, decodeErc1155Batch_eq other,
    fun movements h => decodeErc1155Batch_carries h⟩⟩
  · rw [decodeErc1155Batch_eq] at hok
    cases h : Transfers.decodeErc1155Batch log with
    | ok movements => rw [h] at hok; rw [Except.ok.inj hok]
    | error e => rw [h] at hok; cases hok
  · rw [decodeErc1155Batch_eq] at hp
    cases h : Transfers.decodeErc1155Batch other with
    | ok movements => rw [h] at hp; cases hp
    | error e => rw [h] at hp; cases Except.error.inj hp

namespace Sample

def batch : Batch :=
  ⟨[7, 2 ^ 255], [1000, 0], true, [], List.replicate 32 0xff, [], rfl, by decide, by decide, by decide,
    rfl, by decide⟩

def topic (c : Char) : String :=
  String.ofList ("0x".toList ++ List.replicate 24 '0' ++ List.replicate 40 c)

def log : CanonicalLog :=
  ⟨"event", "0x", 0, 0, "0x", Transfers.ERC1155_TRANSFER_BATCH_TOPIC,
    [Transfers.ERC1155_TRANSFER_BATCH_TOPIC, topic '1', topic '2', topic '3'],
    String.ofList ('0' :: 'x' :: Transfers.encodeHex (numbers batch.data))⟩

def address (c : Char) : String := String.ofList ("0x".toList ++ List.replicate 40 c)

theorem log_ok : BatchLog log batch.data (address '2') (address '3') :=
  ⟨rfl, by decide +kernel, by decide +kernel, decodeHexData_encodeHex (by simp [log])⟩

end Sample

theorem sample_batch_round_trip : Transfers.decodeErc1155Batch Sample.log =
    .ok (pairs (Sample.address '2') (Sample.address '3') [7, 2 ^ 255] [1000, 0]) :=
  (batch_round_trip Sample.log_ok (by decide +kernel)).1

end AmlReal.Bsc.BatchDecoding
