import AmlReal.Ethereum.AbiLogs

/-! # Transfer logs of the standard shapes

What a token contract emits for a transfer, as the ABI encodes it, and that the
extractor reads the movements of just these logs. -/

namespace AmlReal.Ethereum.StandardLogs
open AmlReal.Foundations.FixedWidth AmlReal.Ethereum.Movements AmlReal.Ethereum.AbiLogs

/-! ## The shapes -/

/-- An array at an offset: a word with its length, then its own words. -/
structure ArrayAt (data : List Byte) (offset : Nat) (ws : List U256) : Prop where
  aligned : offset % 32 = 0
  length : ws.length < 2 ^ 64
  bytes : ∃ before after, before.length = offset ∧
    data = before ++ (wordBytes (BitVec.ofNat 256 ws.length) ++ (abiWords ws ++ after))

/-- Two arrays of one length, behind the words with their offsets. -/
structure BatchData (data : List Byte) (ids values : List U256) : Prop where
  arrays : ∃ idsOffset valuesOffset rest, idsOffset < 2 ^ 64 ∧ valuesOffset < 2 ^ 64 ∧
    data = abiWords [BitVec.ofNat 256 idsOffset, BitVec.ofNat 256 valuesOffset] ++ rest ∧
    ArrayAt data idsOffset ids ∧ ArrayAt data valuesOffset values
  paired : ids.length = values.length

/-- The log is a transfer of a token standard, and the movement one it states. -/
inductive StandardMovement (topics : TransferTopics) (log : Log) : TokenMovement → Prop where
  | erc20 {fromAddress toAddress : Address} {amount : U256} :
      log.topics =
        [topics.ERC_TRANSFER_EVENT, addressWord fromAddress, addressWord toAddress] →
      log.data = abiWords [amount] →
      StandardMovement topics log
        ⟨log.address, fromAddress, toAddress, amount, none, .erc20, 0⟩
  | erc721 {fromAddress toAddress : Address} {tokenId : U256} :
      log.topics =
        [topics.ERC_TRANSFER_EVENT, addressWord fromAddress, addressWord toAddress, tokenId] →
      log.data = [] →
      StandardMovement topics log
        ⟨log.address, fromAddress, toAddress, 1, some tokenId, .erc721, 0⟩
  | single {operator : B256} {fromAddress toAddress : Address} {tokenId amount : U256} :
      log.topics = [topics.ERC1155_TRANSFER_SINGLE_EVENT, operator, addressWord fromAddress,
        addressWord toAddress] →
      log.data = abiWords [tokenId, amount] →
      StandardMovement topics log
        ⟨log.address, fromAddress, toAddress, amount, some tokenId, .erc1155, 0⟩
  | batch {operator : B256} {fromAddress toAddress : Address} {ids values : List U256} {i : Nat}
      {tokenId amount : U256} :
      log.topics = [topics.ERC1155_TRANSFER_BATCH_EVENT, operator, addressWord fromAddress,
        addressWord toAddress] →
      BatchData log.data ids values → ids[i]? = some tokenId → values[i]? = some amount →
      StandardMovement topics log
        ⟨log.address, fromAddress, toAddress, amount, some tokenId, .erc1155, i⟩

/-- No two of the transfer events share a digest. -/
structure Distinct (topics : TransferTopics) : Prop where
  single : topics.ERC1155_TRANSFER_SINGLE_EVENT ≠ topics.ERC_TRANSFER_EVENT
  batch : topics.ERC1155_TRANSFER_BATCH_EVENT ≠ topics.ERC_TRANSFER_EVENT
  batchSingle : topics.ERC1155_TRANSFER_BATCH_EVENT ≠ topics.ERC1155_TRANSFER_SINGLE_EVENT

/-! ## Words read back -/

theorem toNat_lt_of_mem (bytes : List Byte) : ∀ d ∈ bytes.map BitVec.toNat, d < 256 := by
  intro d hd
  obtain ⟨b, _, rfl⟩ := List.mem_map.mp hd
  exact b.isLt

theorem map_ofNat_toNat (bytes : List Byte) :
    (bytes.map BitVec.toNat).map (BitVec.ofNat 8) = bytes := by
  rw [List.map_map]
  refine (List.map_congr_left fun b _ => ?_).trans (List.map_id bytes)
  show BitVec.ofNat 8 b.toNat = b
  rw [BitVec.ofNat_toNat, BitVec.setWidth_eq]

/-- The bytes of a number that fits behind as many zeros. -/
theorem wordBytes_padded {m n v : Nat} (hmn : m + n = 32) (hv : v < 256 ^ n) :
    wordBytes (BitVec.ofNat 256 v) =
      List.replicate m 0 ++ (digits 256 n v).map (BitVec.ofNat 8) := by
  have hle : 256 ^ n ≤ 256 ^ 32 := Nat.pow_le_pow_right (by omega) (by omega)
  have hlt : v < 2 ^ 256 := lt_of_lt_of_le hv hle
  rw [wordBytes, BitVec.toNat_ofNat, Nat.mod_eq_of_lt hlt, ← hmn, digits_add,
    Nat.div_eq_of_lt hv, digits_zero, List.map_append, List.map_replicate]
  rfl

theorem wordBytes_wordValue {bytes : List Byte} (h : bytes.length = 32) :
    wordBytes (wordValue bytes) = bytes := by
  have hnumber := number_lt (toNat_lt_of_mem bytes)
  have hdigits := digits_number (toNat_lt_of_mem bytes)
  rw [List.length_map, h] at hnumber hdigits
  rw [wordValue, wordBytes_padded (m := 0) rfl hnumber, hdigits, map_ofNat_toNat]
  rfl

@[simp] theorem length_abiWords (ws : List U256) : (abiWords ws).length = 32 * ws.length := by
  induction ws with
  | nil => rfl
  | cons w rest ih =>
    rw [abiWords, List.flatMap_cons, List.length_append, length_wordBytes, List.length_cons]
    rw [abiWords] at ih
    omega

theorem abiWords_cons (w : U256) (ws : List U256) : abiWords (w :: ws) = wordBytes w ++ abiWords ws :=
  rfl

theorem topicAddress_eq_some {topic : B256} {address : Address} :
    topicAddress topic = some address ↔ topic = addressWord address := by
  constructor
  · intro h
    unfold topicAddress at h
    split at h
    · rename_i hlt
      obtain rfl := Option.some.inj h
      refine BitVec.eq_of_toNat_eq ?_
      rw [toNat_addressWord, BitVec.toNat_ofNat, Nat.mod_eq_of_lt hlt]
    · cases h
  · rintro rfl
    exact topicAddress_addressWord address

theorem wordUsize_eq_some {bytes : List Byte} {n : Nat} :
    wordUsize bytes = some n ↔ n < 2 ^ 64 ∧ bytes = wordBytes (BitVec.ofNat 256 n) := by
  constructor
  · intro h
    unfold wordUsize at h
    split at h
    · rename_i hword
      obtain ⟨hlength, hzero⟩ := hword
      obtain rfl := Option.some.inj h
      have hdrop : (bytes.drop 24).length = 8 := by
        rw [List.length_drop]
        omega
      have hnumber := number_lt (toNat_lt_of_mem (bytes.drop 24))
      have hdigits := digits_number (toNat_lt_of_mem (bytes.drop 24))
      rw [List.length_map, hdrop] at hnumber hdigits
      have hfront : bytes.take 24 = List.replicate 24 0 := by
        refine List.eq_replicate_iff.mpr ⟨by rw [List.length_take]; omega, fun b hb => ?_⟩
        simpa using List.all_eq_true.mp hzero b hb
      refine ⟨hnumber, ?_⟩
      rw [wordBytes_padded (m := 24) rfl hnumber, hdigits, map_ofNat_toNat, ← hfront,
        List.take_append_drop]
    · cases h
  · rintro ⟨hn, hbytes⟩
    have hn' : n < 256 ^ 8 := hn
    have hsplit := wordBytes_padded (m := 24) rfl hn'
    have htake : (wordBytes (BitVec.ofNat 256 n)).take 24 = List.replicate 24 0 := by
      rw [hsplit, List.take_left' (by simp)]
    have hdrop : (wordBytes (BitVec.ofNat 256 n)).drop 24 =
        (digits 256 8 n).map (BitVec.ofNat 8) := by
      rw [hsplit, List.drop_left' (by simp)]
    unfold wordUsize
    rw [hbytes, if_pos ⟨length_wordBytes _, by rw [htake]; decide⟩, hdrop,
      map_toNat_ofNat (digits_lt (by omega) 8 n), number_digits hn']

/-- A slice of the data stands between what comes before and after it. -/
theorem wordAt_eq_some {data bytes : List Byte} {start : Nat} :
    wordAt data start = some bytes ↔ bytes.length = 32 ∧
      ∃ before after, before.length = start ∧ data = before ++ (bytes ++ after) := by
  constructor
  · intro h
    unfold wordAt at h
    split at h
    · rename_i hle
      obtain rfl := Option.some.inj h
      refine ⟨by rw [List.length_take, List.length_drop]; omega, data.take start,
        (data.drop start).drop 32, by rw [List.length_take]; omega, ?_⟩
      rw [List.take_append_drop, List.take_append_drop]
    · cases h
  · rintro ⟨hlength, before, after, rfl, rfl⟩
    unfold wordAt
    have hle : before.length + 32 ≤ (before ++ (bytes ++ after)).length := by
      rw [List.length_append, List.length_append]
      omega
    rw [if_pos hle, List.drop_left, List.take_left' hlength]

theorem wordsFrom_append (before after : List Byte) (ws : List U256) :
    wordsFrom (before ++ (abiWords ws ++ after)) before.length ws.length = ws := by
  induction ws generalizing before with
  | nil => rfl
  | cons w rest ih =>
    have hnext := ih (before ++ wordBytes w)
    rw [List.length_append, length_wordBytes, List.append_assoc] at hnext
    rw [List.length_cons, wordsFrom, List.drop_left, abiWords_cons, List.append_assoc,
      List.take_left' (length_wordBytes w), wordValue_wordBytes, hnext]

theorem drop_wordsFrom {data : List Byte} {start n : Nat} (h : start + 32 * n ≤ data.length) :
    data.drop start = abiWords (wordsFrom data start n) ++ data.drop (start + 32 * n) := by
  induction n generalizing start with
  | zero => rfl
  | succ n ih =>
    have hword : ((data.drop start).take 32).length = 32 := by
      rw [List.length_take, List.length_drop]
      omega
    rw [wordsFrom, abiWords_cons, wordBytes_wordValue hword, List.append_assoc,
      show start + 32 * (n + 1) = start + 32 + 32 * n by omega, ← ih (by omega),
      ← List.drop_drop, List.take_append_drop]

@[simp] theorem length_wordsFrom (data : List Byte) (start n : Nat) :
    (wordsFrom data start n).length = n := by
  induction n generalizing start with
  | zero => rfl
  | succ n ih => rw [wordsFrom, List.length_cons, ih]

theorem abiU256Array_eq_some {data : List Byte} {offset : Nat} {ws : List U256} :
    abiU256Array data offset = some ws ↔ ArrayAt data offset ws := by
  constructor
  · intro h
    unfold abiU256Array at h
    split at h
    · cases h
    · rename_i haligned
      simp only [Option.bind_eq_bind, Option.bind_eq_some_iff] at h
      obtain ⟨bytes, hbytes, n, hn, h⟩ := h
      split at h
      · rename_i hle
        obtain rfl := Option.some.inj h
        obtain ⟨hsize, hword⟩ := wordUsize_eq_some.mp hn
        rw [hword] at hbytes
        obtain ⟨_, before, after, rfl, hdata⟩ := wordAt_eq_some.mp hbytes
        refine ⟨by omega, by rwa [length_wordsFrom], before, data.drop (before.length + 32 + 32 * n),
          rfl, ?_⟩
        have hdrop : data.drop (before.length + 32) = after := by
          rw [hdata, ← List.append_assoc, List.drop_left' (by simp)]
        rw [length_wordsFrom, ← drop_wordsFrom hle, hdrop]
        exact hdata
      · cases h
  · rintro ⟨haligned, hlength, before, after, rfl, hdata⟩
    have hword : wordAt data before.length = some (wordBytes (BitVec.ofNat 256 ws.length)) :=
      wordAt_eq_some.mpr ⟨length_wordBytes _, before, _, rfl, hdata⟩
    have husize : wordUsize (wordBytes (BitVec.ofNat 256 ws.length)) = some ws.length :=
      wordUsize_eq_some.mpr ⟨hlength, rfl⟩
    have hle : before.length + 32 + 32 * ws.length ≤ data.length := by
      rw [hdata]
      simp only [List.length_append, length_wordBytes, length_abiWords]
      omega
    have hfrom := wordsFrom_append (before ++ wordBytes (BitVec.ofNat 256 ws.length)) after ws
    rw [List.length_append, length_wordBytes, List.append_assoc, ← hdata] at hfrom
    unfold abiU256Array
    rw [if_neg (by omega)]
    simp only [Option.bind_eq_bind, hword, husize, Option.bind_some]
    rw [if_pos hle, hfrom]

/-! ## The movements of a log -/

section
variable {topics : TransferTopics} {log : Log} {m : TokenMovement}

theorem abiWords_singleton {data : List Byte} (h : data.length = 32) :
    data = abiWords [wordValue data] := by
  rw [abiWords_cons, wordBytes_wordValue h]
  exact (List.append_nil data).symm

theorem decodeErc20OrErc721_standard (htopic : log.topics.head? = some topics.ERC_TRANSFER_EVENT)
    (h : decodeErc20OrErc721 log = some m) :
    StandardMovement topics log m ∧ m.eventSubIndex = 0 := by
  unfold decodeErc20OrErc721 at h
  simp only [Option.bind_eq_bind, Option.bind_eq_some_iff] at h
  obtain ⟨source, hsource, fromAddress, hfrom, target, htarget, toAddress, hto, h⟩ := h
  obtain rfl := topicAddress_eq_some.mp hfrom
  obtain rfl := topicAddress_eq_some.mp hto
  split at h
  · rename_i first second third htopics
    rw [htopics] at hsource htarget htopic
    obtain rfl := Option.some.inj hsource
    obtain rfl := Option.some.inj htarget
    obtain rfl := Option.some.inj htopic
    split at h
    · rename_i hlength
      obtain rfl := Option.some.inj h
      exact ⟨.erc20 htopics (abiWords_singleton hlength), rfl⟩
    · cases h
  · rename_i first second third fourth htopics
    rw [htopics] at hsource htarget htopic
    obtain rfl := Option.some.inj hsource
    obtain rfl := Option.some.inj htarget
    obtain rfl := Option.some.inj htopic
    split at h
    · rename_i hdata
      obtain rfl := Option.some.inj h
      exact ⟨.erc721 htopics hdata, rfl⟩
    · cases h
  · cases h

theorem word_pair {data : List Byte} (h : data.length = 64) :
    ∃ first second, data = abiWords [first, second] ∧
      word data 0 = some (wordBytes first) ∧ word data 1 = some (wordBytes second) := by
  have hfirst : (data.take 32).length = 32 := by
    rw [List.length_take]
    omega
  have hsecond : (data.drop 32).length = 32 := by
    rw [List.length_drop]
    omega
  have hdata : data = abiWords [wordValue (data.take 32), wordValue (data.drop 32)] := by
    rw [abiWords_cons, wordBytes_wordValue hfirst, ← abiWords_singleton hsecond,
      List.take_append_drop]
  have hwords := fun i w => word_abiWords [wordValue (data.take 32), wordValue (data.drop 32)] [] i
    (w := w)
  rw [List.append_nil, ← hdata] at hwords
  exact ⟨_, _, hdata, hwords 0 _ rfl, hwords 1 _ rfl⟩

theorem four_topics {topics : List B256} {third fourth : B256} (h : topics.length = 4)
    (hthird : topics[2]? = some third) (hfourth : topics[3]? = some fourth) :
    ∃ first second, topics = [first, second, third, fourth] := by
  match topics with
  | [first, second, _, _] =>
    obtain rfl := Option.some.inj hthird
    obtain rfl := Option.some.inj hfourth
    exact ⟨first, second, rfl⟩
  | [] | [_] | [_, _] | [_, _, _] | _ :: _ :: _ :: _ :: _ :: _ => simp at h

theorem decodeErc1155Single_standard
    (htopic : log.topics.head? = some topics.ERC1155_TRANSFER_SINGLE_EVENT)
    (h : decodeErc1155Single log = some m) :
    StandardMovement topics log m ∧ m.eventSubIndex = 0 := by
  unfold decodeErc1155Single at h
  split at h
  · cases h
  · rename_i hshape
    obtain ⟨hfour, hdata⟩ := not_or.mp hshape
    simp only [Option.bind_eq_bind, Option.bind_eq_some_iff] at h
    obtain ⟨source, hsource, fromAddress, hfrom, target, htarget, toAddress, hto, idWord, hid,
      amountWord, hamount, h⟩ := h
    obtain rfl := Option.some.inj h
    obtain rfl := topicAddress_eq_some.mp hfrom
    obtain rfl := topicAddress_eq_some.mp hto
    obtain ⟨tokenId, amount, hwords, hzero, hone⟩ := word_pair (not_not.mp hdata)
    have hidWord : idWord = wordBytes tokenId := Option.some.inj (hid.symm.trans hzero)
    have hamountWord : amountWord = wordBytes amount := Option.some.inj (hamount.symm.trans hone)
    rw [hidWord, hamountWord, wordValue_wordBytes, wordValue_wordBytes]
    obtain ⟨topic0, operator, htopics⟩ := four_topics (not_not.mp hfour) hsource htarget
    rw [htopics] at htopic
    obtain rfl := Option.some.inj htopic
    exact ⟨.single htopics hwords, rfl⟩

/-- The parts of a batch that is not malformed. -/
theorem erc1155Batch_eq_some {movements : List TokenMovement} (h : erc1155Batch log = some movements) :
    ∃ topic0 operator fromAddress toAddress ids values,
      log.topics = [topic0, operator, addressWord fromAddress, addressWord toAddress] ∧
      BatchData log.data ids values ∧
      movements = (ids.zip values).zipIdx.filterMap (batchMovement log fromAddress toAddress) := by
  unfold erc1155Batch at h
  split at h
  · cases h
  · rename_i hfour
    simp only [Option.bind_eq_bind, Option.bind_eq_some_iff] at h
    obtain ⟨source, hsource, fromAddress, hfrom, target, htarget, toAddress, hto, idsWord, hidsWord,
      idsOffset, hids, valuesWord, hvaluesWord, valuesOffset, hvalues, ids, hidsArray, values,
      hvaluesArray, h⟩ := h
    split at h
    · cases h
    · rename_i hpaired
      obtain rfl := Option.some.inj h
      obtain rfl := topicAddress_eq_some.mp hfrom
      obtain rfl := topicAddress_eq_some.mp hto
      obtain ⟨hidsOffset, hidsBytes⟩ := wordUsize_eq_some.mp hids
      obtain ⟨hvaluesOffset, hvaluesBytes⟩ := wordUsize_eq_some.mp hvalues
      obtain ⟨_, first, rest, hfirst, hdata⟩ := wordAt_eq_some.mp hidsWord
      obtain ⟨_, before, after, hbefore, hdata'⟩ := wordAt_eq_some.mp hvaluesWord
      obtain rfl := List.length_eq_zero_iff.mp hfirst
      -- the second word follows the first
      have hhead : before = idsWord := by
        have htake := congrArg (List.take 32) hdata
        rw [hdata', List.take_left' hbefore, List.nil_append, hidsBytes,
          List.take_left' (length_wordBytes _)] at htake
        rw [htake, hidsBytes]
      have hwords : log.data = abiWords [BitVec.ofNat 256 idsOffset, BitVec.ofNat 256 valuesOffset] ++
          after := by
        rw [hdata', hhead, hidsBytes, hvaluesBytes]
        simp only [abiWords_cons, List.append_assoc]
        rfl
      obtain ⟨topic0, operator, htopics⟩ := four_topics (not_not.mp hfour) hsource htarget
      exact ⟨topic0, operator, fromAddress, toAddress, ids, values, htopics, ⟨⟨idsOffset,
        valuesOffset, after, hidsOffset, hvaluesOffset, hwords, abiU256Array_eq_some.mp hidsArray,
        abiU256Array_eq_some.mp hvaluesArray⟩, not_not.mp hpaired⟩, rfl⟩

theorem erc1155Batch_of_data {topic0 operator : B256} {fromAddress toAddress : Address}
    {ids values : List U256}
    (htopics : log.topics = [topic0, operator, addressWord fromAddress, addressWord toAddress])
    (hdata : BatchData log.data ids values) :
    erc1155Batch log =
      some ((ids.zip values).zipIdx.filterMap (batchMovement log fromAddress toAddress)) := by
  obtain ⟨⟨idsOffset, valuesOffset, rest, hids, hvalues, hwords, hidsArray, hvaluesArray⟩, hpaired⟩ :=
    hdata
  have hword := fun i w =>
    word_abiWords [BitVec.ofNat 256 idsOffset, BitVec.ofNat 256 valuesOffset] rest i (w := w)
  rw [← hwords] at hword
  have hidsOffset : wordUsize (wordBytes (BitVec.ofNat 256 idsOffset)) = some idsOffset :=
    wordUsize_eq_some.mpr ⟨hids, rfl⟩
  have hvaluesOffset : wordUsize (wordBytes (BitVec.ofNat 256 valuesOffset)) = some valuesOffset :=
    wordUsize_eq_some.mpr ⟨hvalues, rfl⟩
  unfold erc1155Batch
  rw [if_neg (by rw [htopics]; simp)]
  simp only [htopics, List.getElem?_cons_succ, List.getElem?_cons_zero, Option.bind_eq_bind,
    Option.bind_some, topicAddress_addressWord, hword 0 _ rfl, hword 1 _ rfl, hidsOffset,
    hvaluesOffset, abiU256Array_eq_some.mpr hidsArray, abiU256Array_eq_some.mpr hvaluesArray]
  rw [if_neg (not_not.mpr hpaired)]

theorem mem_batchMovements {fromAddress toAddress : Address} {ids values : List U256} :
    m ∈ (ids.zip values).zipIdx.filterMap (batchMovement log fromAddress toAddress) ↔
      ∃ i tokenId amount, ids[i]? = some tokenId ∧ values[i]? = some amount ∧ i < 2 ^ 32 ∧
        m = ⟨log.address, fromAddress, toAddress, amount, some tokenId, .erc1155, i⟩ := by
  rw [List.mem_filterMap]
  constructor
  · rintro ⟨⟨⟨tokenId, amount⟩, i⟩, hitem, hmovement⟩
    have hat := List.mem_zipIdx_iff_getElem?.mp hitem
    obtain ⟨hid, hamount⟩ := List.getElem?_zip_eq_some.mp hat
    unfold batchMovement at hmovement
    split at hmovement
    · rename_i hlt
      exact ⟨i, tokenId, amount, hid, hamount, hlt, (Option.some.inj hmovement).symm⟩
    · cases hmovement
  · rintro ⟨i, tokenId, amount, hid, hamount, hlt, rfl⟩
    refine ⟨((tokenId, amount), i), List.mem_zipIdx_iff_getElem?.mpr
      (List.getElem?_zip_eq_some.mpr ⟨hid, hamount⟩), ?_⟩
    unfold batchMovement
    rw [if_pos hlt]

theorem mem_decodeErc1155Batch (htopic : log.topics.head? = some topics.ERC1155_TRANSFER_BATCH_EVENT)
    (h : m ∈ decodeErc1155Batch log) : StandardMovement topics log m ∧ m.eventSubIndex < 2 ^ 32 := by
  unfold decodeErc1155Batch at h
  cases hbatch : erc1155Batch log with
  | none =>
    rw [hbatch] at h
    cases h
  | some movements =>
    rw [hbatch] at h
    obtain ⟨topic0, operator, fromAddress, toAddress, ids, values, htopics, hdata, rfl⟩ :=
      erc1155Batch_eq_some hbatch
    obtain ⟨i, tokenId, amount, hid, hamount, hlt, rfl⟩ := mem_batchMovements.mp h
    rw [htopics] at htopic
    obtain rfl := Option.some.inj htopic
    exact ⟨.batch htopics hdata hid hamount, hlt⟩

/-- The extractor reads the movements of the standard logs, as far as a batch
numbers them in 32 bits. -/
theorem mem_tokenMovements (htopics : Distinct topics) :
    m ∈ tokenMovements topics log ↔ StandardMovement topics log m ∧ m.eventSubIndex < 2 ^ 32 := by
  constructor
  · intro h
    unfold tokenMovements Log.topic0 at h
    split at h
    · cases h
    · rename_i topic0 htopic
      split at h
      · rename_i hevent
        obtain ⟨hstandard, hindex⟩ :=
          decodeErc20OrErc721_standard (hevent ▸ htopic) (Option.mem_toList.mp h)
        exact ⟨hstandard, by omega⟩
      · split at h
        · rename_i hevent
          obtain ⟨hstandard, hindex⟩ :=
            decodeErc1155Single_standard (hevent ▸ htopic) (Option.mem_toList.mp h)
          exact ⟨hstandard, by omega⟩
        · split at h
          · rename_i hevent
            exact mem_decodeErc1155Batch (hevent ▸ htopic) h
          · cases h
  · rintro ⟨hstandard, hlt⟩
    unfold tokenMovements Log.topic0
    cases hstandard with
    | erc20 hlog hdata =>
      simp [hlog, hdata, decodeErc20OrErc721, wordValue_wordBytes, abiWords]
    | erc721 hlog hdata =>
      simp [hlog, hdata, decodeErc20OrErc721]
    | @single operator fromAddress toAddress tokenId amount hlog hdata =>
      have hword := fun i w => word_abiWords [tokenId, amount] [] i (w := w)
      rw [List.append_nil, ← hdata] at hword
      have hlength : log.data.length = 64 := by
        rw [hdata, length_abiWords]
        rfl
      simp [hlog, htopics.single, decodeErc1155Single, hlength, hword 0 _ rfl, hword 1 _ rfl,
        wordValue_wordBytes]
    | @batch operator fromAddress toAddress ids values i tokenId amount hlog hdata hid hamount =>
      have hbatch := erc1155Batch_of_data hlog hdata
      have hmem : _ ∈ (ids.zip values).zipIdx.filterMap (batchMovement log fromAddress toAddress) :=
        mem_batchMovements.mpr ⟨i, tokenId, amount, hid, hamount, hlt, rfl⟩
      simp only [hlog, List.head?_cons, htopics.batch, htopics.batchSingle, if_false, if_true,
        decodeErc1155Batch, hbatch, Option.getD_some]
      exact hmem

/-- The movements of a log have different positions in it. -/
theorem tokenMovements_apart (topics : TransferTopics) (log : Log) :
    (tokenMovements topics log).Pairwise fun a b => a.eventSubIndex ≠ b.eventSubIndex := by
  have hsingle : ∀ movement : Option TokenMovement,
      movement.toList.Pairwise fun a b => a.eventSubIndex ≠ b.eventSubIndex := by
    intro movement
    cases movement <;> simp
  unfold tokenMovements
  split
  · exact List.Pairwise.nil
  · split
    · exact hsingle _
    · split
      · exact hsingle _
      · split
        · unfold decodeErc1155Batch
          cases hbatch : erc1155Batch log with
          | none => exact List.Pairwise.nil
          | some movements =>
            obtain ⟨_, _, fromAddress, toAddress, ids, values, _, _, rfl⟩ :=
              erc1155Batch_eq_some hbatch
            have hindexes : (ids.zip values).zipIdx.Pairwise fun a b => a.2 ≠ b.2 :=
              List.pairwise_map.mp (by rw [List.zipIdx_map_snd]; exact List.nodup_range')
            refine List.pairwise_filterMap.mpr (hindexes.imp fun hne m hm m' hm' => ?_)
            unfold batchMovement at hm hm'
            split at hm <;> split at hm' <;> simp_all
            rw [← hm, ← hm']
            exact hne
        · exact List.Pairwise.nil

end

end AmlReal.Ethereum.StandardLogs
