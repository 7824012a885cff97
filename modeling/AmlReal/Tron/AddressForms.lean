import AmlReal.Tron.AddressSpellings

/-! # The spellings of a TRON account

Every accepted hexadecimal text is read as the account of its last twenty bytes,
whatever stands before them in a longer text. -/

namespace AmlReal.Tron.AddressForms
open AmlReal.Foundations AmlReal.Foundations.Checks AmlReal.Foundations.Base58
open AmlReal.Tron.AddressSpellings

/-- The twenty bytes of an account. -/
structure Account where
  bytes : List Nat
  length : bytes.length = 20
  lt : ∀ b ∈ bytes, b < 256

theorem Account.ext {a b : Account} (h : a.bytes = b.bytes) : a = b := by
  obtain ⟨_, _, _⟩ := a
  obtain rfl := h
  rfl

/-- The text of hexadecimal digits, in any case and with at most one prefix, for the bytes. -/
def SpellsBytes (bytes : List Nat) (text : List Char) : Prop :=
  ∃ cs, HexText.decode cs = some bytes ∧ (text = cs ∨ text = '0' :: 'x' :: cs ∨ text = '0' :: 'X' :: cs)

section
variable (sha : Sha256)

/-- The base58check form of an account. -/
def base58Check (a : Account) : List Char := encode (0x41 :: a.bytes ++ sha.checksum (0x41 :: a.bytes))

/-- The spellings of an account. -/
inductive Spelling (a : Account) : List Char → Prop
  | plain {text : List Char} : SpellsBytes a.bytes text → Spelling a text
  | tron {text : List Char} : SpellsBytes (0x41 :: a.bytes) text → Spelling a text
  | word {text : List Char} : SpellsBytes (List.replicate 12 0 ++ a.bytes) text → Spelling a text
  | base58 : Spelling a (base58Check sha a)

end

/-- What may stand before the account in a word of 32 bytes. -/
def Padded (upper : List Nat) : Prop :=
  upper = List.replicate 12 0 ∨ upper = List.replicate 11 0 ++ [0x41]

/-! ## Hexadecimal texts -/

theorem decode_length {cs : List Char} {bytes : List Nat} (h : HexText.decode cs = some bytes) :
    cs.length = 2 * bytes.length := by
  induction cs using HexText.decode.induct generalizing bytes with
  | case1 =>
    cases h
    rfl
  | case2 high low rest ih =>
    obtain ⟨_, _, tail, _, _, htail, rfl⟩ := HexText.decode_cons_eq_some.mp h
    simp only [List.length_cons, ih htail]
    omega
  | case3 c => cases h

theorem decode_lt_byte {cs : List Char} {bytes : List Nat} (h : HexText.decode cs = some bytes) :
    ∀ b ∈ bytes, b < 256 := by
  induction cs using HexText.decode.induct generalizing bytes with
  | case1 =>
    cases h
    simp
  | case2 high low rest ih =>
    obtain ⟨hi, lo, tail, hhigh, hlow, htail, rfl⟩ := HexText.decode_cons_eq_some.mp h
    have hhi := Numerals.nibble_lt hhigh
    have hlo := Numerals.nibble_lt hlow
    exact List.forall_mem_cons.mpr ⟨by omega, ih htail⟩
  | case3 c => cases h

/-- Two digits for each byte. -/
theorem decode_drop {cs : List Char} {bytes : List Nat} (h : HexText.decode cs = some bytes) (k : Nat) :
    HexText.decode (cs.drop (2 * k)) = some (bytes.drop k) := by
  induction k generalizing cs bytes with
  | zero => exact h
  | succ k ih =>
    cases cs using HexText.decode.induct with
    | case1 =>
      cases h
      rfl
    | case2 high low rest _ =>
      obtain ⟨_, _, tail, _, _, htail, rfl⟩ := HexText.decode_cons_eq_some.mp h
      exact ih htail
    | case3 c => cases h

theorem nibble_decimal {c d : Char} (hd : d.isDigit = true) (h : HexText.nibble c = HexText.nibble d) :
    c = d := by
  have hdigit := Char.isDigit_iff_toNat.mp hd
  have hvalue : HexText.nibble d = some (d.toNat - '0'.toNat) := if_pos hd
  rw [hvalue] at h
  unfold HexText.nibble at h
  have hzero : '0'.toNat = 48 := rfl
  have hnine : '9'.toNat = 57 := rfl
  split_ifs at h with h1 h2 h3
  · have hc := Char.isDigit_iff_toNat.mp h1
    have hsub := Option.some.inj h
    exact Char.toNat_inj.mp (by omega)
  · have hsub := Option.some.inj h
    omega
  · have hsub := Option.some.inj h
    omega

/-- A text starts with these two digits just when its first byte is theirs. -/
theorem take_tron {cs : List Char} {b : Nat} {bytes : List Nat}
    (h : HexText.decode cs = some (b :: bytes)) : cs.take 2 = ['4', '1'] ↔ b = 0x41 := by
  cases cs using HexText.decode.induct with
  | case1 => cases h
  | case2 high low rest _ =>
    obtain ⟨hi, lo, tail, hhigh, hlow, _, heq⟩ := HexText.decode_cons_eq_some.mp h
    obtain ⟨rfl, rfl⟩ := List.cons.inj heq
    have hhi := Numerals.nibble_lt hhigh
    have hlo := Numerals.nibble_lt hlow
    constructor
    · intro htake
      simp only [List.take_succ_cons, List.take_zero, List.cons.injEq, and_true] at htake
      obtain ⟨rfl, rfl⟩ := htake
      cases hhigh
      cases hlow
      rfl
    · intro hbyte
      obtain ⟨rfl, rfl⟩ : hi = 4 ∧ lo = 1 := by omega
      have h4 : high = '4' := nibble_decimal (by decide) (hhigh.trans (by decide))
      have h1 : low = '1' := nibble_decimal (by decide) (hlow.trans (by decide))
      rw [h4, h1]
      rfl
  | case3 c => cases h

theorem decode_tron {cs : List Char} {bytes : List Nat} (h : HexText.decode cs = some bytes) :
    HexText.decode ('4' :: '1' :: cs) = some (0x41 :: bytes) :=
  HexText.decode_cons_eq_some.mpr ⟨4, 1, bytes, by decide, by decide, h, rfl⟩

theorem trim_hex {c d : Char} (hd : HexText.isHex d = false) {cs : List Char}
    (h : cs.all HexText.isHex = true) : trimStartMatches c d cs = cs := by
  match cs with
  | [] => rfl
  | [_] => rfl
  | x :: y :: rest =>
    rw [trimStartMatches, if_neg]
    rintro ⟨_, rfl⟩
    simp only [List.all_cons, Bool.and_eq_true] at h
    rw [hd] at h
    exact absurd h.2.1 (by decide)

/-- The prefixes leave the digits. -/
theorem trim_spells {bytes : List Nat} {text : List Char} (h : SpellsBytes bytes text) :
    ∃ cs, HexText.decode cs = some bytes ∧
      trimStartMatches '0' 'X' (trimStartMatches '0' 'x' text) = cs := by
  obtain ⟨cs, hcs, hform⟩ := h
  have hall := HexText.isHex_of_decode hcs
  have hx : trimStartMatches '0' 'x' cs = cs := trim_hex (by decide) hall
  have hX : trimStartMatches '0' 'X' cs = cs := trim_hex (by decide) hall
  refine ⟨cs, hcs, ?_⟩
  rcases hform with rfl | rfl | rfl
  · rw [hx, hX]
  · rw [trimStartMatches, if_pos ⟨rfl, rfl⟩, hx, hX]
  · have hskip : trimStartMatches '0' 'x' ('0' :: 'X' :: cs) = '0' :: 'X' :: cs := by
      rw [trimStartMatches, if_neg (by decide)]
    rw [hskip, trimStartMatches, if_pos ⟨rfl, rfl⟩, hX]

/-- The payload of an accepted text is that of its last twenty bytes. -/
theorem normalizeHexPayload_decode {cs : List Char} {front : List Nat} {a : Account}
    (h : HexText.decode cs = some (front ++ a.bytes))
    (hfront : front = [] ∨ front = [0x41] ∨ 2 ≤ front.length) :
    ∃ payload, normalizeHexPayload cs = some payload ∧
      HexText.decode payload = some (0x41 :: a.bytes) := by
  have hlength : cs.length = 2 * front.length + 40 := by
    rw [decode_length h, List.length_append, a.length]
    omega
  have hlast : HexText.decode (cs.drop (2 * front.length)) = some a.bytes := by
    rw [decode_drop h, List.drop_left]
  unfold normalizeHexPayload
  rw [if_neg (not_not.mpr (HexText.isHex_of_decode h))]
  rcases hfront with rfl | rfl | hlong
  · rw [if_neg (by simp at hlength; omega), if_pos (by simpa using hlength)]
    exact ⟨_, rfl, decode_tron h⟩
  · rw [if_pos ⟨hlength, (take_tron h).mpr rfl⟩]
    exact ⟨_, rfl, h⟩
  · rw [if_neg (by omega), if_neg (by omega), if_pos (by omega)]
    -- the byte before the account decides which of the two ways is taken
    obtain ⟨init, b, rfl⟩ := (List.eq_nil_or_concat' front).resolve_left (by rintro rfl; simp at hlong)
    rw [List.length_append, List.length_singleton] at hlength hlast
    have hb : HexText.decode (cs.drop (2 * init.length)) = some (b :: a.bytes) := by
      rw [decode_drop h, List.append_assoc, List.drop_left]
      rfl
    rw [show cs.length - 42 = 2 * init.length by omega, show cs.length - 40 = 2 * (init.length + 1) by omega]
    simp only
    by_cases htake : (cs.drop (2 * init.length)).take 2 = ['4', '1']
    · obtain rfl := (take_tron hb).mp htake
      rw [if_pos htake]
      exact ⟨_, rfl, hb⟩
    · rw [if_neg htake]
      exact ⟨_, rfl, decode_tron hlast⟩

section
variable (sha : Sha256)

theorem hexToBase58_spells {front : List Nat} {a : Account} {text : List Char}
    (h : SpellsBytes (front ++ a.bytes) text)
    (hfront : front = [] ∨ front = [0x41] ∨ 2 ≤ front.length) :
    hexToBase58 sha text = some (base58Check sha a) := by
  obtain ⟨cs, hcs, htrim⟩ := trim_spells h
  obtain ⟨payload, hpayload, hdecode⟩ := normalizeHexPayload_decode hcs hfront
  unfold hexToBase58
  simp only [htrim, hpayload, Option.bind_eq_bind, Option.bind_some, hdecode]
  rw [if_neg (by simp [a.length])]
  rfl

theorem head_not_T {bytes : List Nat} {text : List Char} (h : SpellsBytes bytes text)
    (hne : bytes ≠ []) : text ≠ [] ∧ text.head? ≠ some 'T' := by
  obtain ⟨cs, hcs, hform⟩ := h
  rcases hform with rfl | rfl | rfl
  · have hall := HexText.isHex_of_decode hcs
    cases text with
    | nil =>
      cases hcs
      exact absurd rfl hne
    | cons c rest =>
      refine ⟨List.cons_ne_nil _ _, fun hc => ?_⟩
      obtain rfl := Option.some.inj hc
      simp [HexText.isHex, HexText.nibble] at hall
  · exact ⟨List.cons_ne_nil _ _, by simp⟩
  · exact ⟨List.cons_ne_nil _ _, by simp⟩

theorem normalize_spells {front : List Nat} {a : Account} {text : List Char}
    (h : SpellsBytes (front ++ a.bytes) text)
    (hfront : front = [] ∨ front = [0x41] ∨ 2 ≤ front.length) :
    normalizeTronAddress sha text = some (base58Check sha a) := by
  have hne : front ++ a.bytes ≠ [] := by
    intro hnil
    have hlength := congrArg List.length hnil
    rw [List.length_append, a.length] at hlength
    cases hlength
  obtain ⟨hnonempty, hhead⟩ := head_not_T h hne
  rw [normalizeTronAddress, if_neg hnonempty, if_neg hhead, hexToBase58_spells sha h hfront]

/-! ## The base58check form -/

theorem Sha256.checksum_form (payload : List Nat) :
    (sha.checksum payload).length = 4 ∧ ∀ b ∈ sha.checksum payload, b < 256 := by
  unfold Sha256.checksum
  refine ⟨?_, fun b hb => sha.lt _ b (List.mem_of_mem_take hb)⟩
  rw [List.length_take, sha.length]
  rfl

/-- The bytes of the base58check form. -/
theorem decode_base58Check (a : Account) : decode (base58Check sha a) =
    some (0x41 :: a.bytes ++ sha.checksum (0x41 :: a.bytes)) := by
  refine decode_encode fun b hb => ?_
  rcases List.mem_append.mp hb with hb | hb
  · rcases List.mem_cons.mp hb with rfl | hb
    · decide
    · exact a.lt b hb
  · exact (Sha256.checksum_form sha _).2 b hb

theorem base58Check_inj {a b : Account} (h : base58Check sha a = base58Check sha b) : a = b := by
  have hdecode := decode_base58Check sha a
  rw [h, decode_base58Check sha b, Option.some.injEq] at hdecode
  have hpayload := List.append_inj_left hdecode (by simp [a.length, b.length])
  exact Account.ext (List.cons.inj hpayload).2.symm

/-- Twenty-five bytes that start with 0x41 are spelled by 34 characters with a T in front. -/
theorem encode_form {bytes : List Nat} (hlength : bytes.length = 24) (hlt : ∀ b ∈ bytes, b < 256) :
    (encode (0x41 :: bytes)).head? = some 'T' ∧ (encode (0x41 :: bytes)).length = 34 := by
  have hhead : ∀ d, (0x41 :: bytes).head? = some d → d ≠ 0 := by
    intro d hd
    obtain rfl := Option.some.inj hd
    decide
  have hvalue : Nat.ofDigits 256 (0x41 :: bytes).reverse = number bytes + 256 ^ 24 * 0x41 := by
    rw [← hlength]
    exact number_cons 0x41 bytes
  have hsmall : number bytes < 256 ^ 24 := by
    have h := Nat.ofDigits_lt_base_pow_length (b := 256) (l := bytes.reverse) (by decide)
      fun b hb => hlt b (List.mem_reverse.mp hb)
    rwa [List.length_reverse, hlength] at h
  have hbelow : 26 * 58 ^ 33 ≤ 256 ^ 24 * 0x41 := by norm_num
  have habove : 256 ^ 24 * 0x42 ≤ (26 + 1) * 58 ^ 33 := by norm_num
  have hlow : 26 * 58 ^ 33 ≤ number bytes + 256 ^ 24 * 0x41 := hbelow.trans (Nat.le_add_left _ _)
  have hhigh : number bytes + 256 ^ 24 * 0x41 < (26 + 1) * 58 ^ 33 := by
    refine lt_of_lt_of_le ?_ habove
    rw [show 0x42 = 0x41 + 1 from rfl, Nat.mul_succ, Nat.add_comm]
    exact Nat.add_lt_add_left hsmall _
  have hdigits := digits_head (by decide) (by decide) (by decide) hlow hhigh
  rw [encode, convert_of_head hhead, hvalue, List.head?_map, hdigits.1, List.length_map,
    List.length_reverse]
  exact ⟨rfl, hdigits.2⟩

theorem base58Check_form (a : Account) :
    (base58Check sha a).head? = some 'T' ∧ (base58Check sha a).length = 34 := by
  show (encode (0x41 :: (a.bytes ++ sha.checksum (0x41 :: a.bytes)))).head? = some 'T' ∧
    (encode (0x41 :: (a.bytes ++ sha.checksum (0x41 :: a.bytes)))).length = 34
  refine encode_form ?_ fun b hb => ?_
  · rw [List.length_append, a.length, (Sha256.checksum_form sha _).1]
  · rcases List.mem_append.mp hb with hb | hb
    · exact a.lt b hb
    · exact (Sha256.checksum_form sha _).2 b hb

theorem base58ToHex_base58Check (a : Account) : (base58ToHex sha (base58Check sha a)).isSome := by
  have htake : (0x41 :: a.bytes ++ sha.checksum (0x41 :: a.bytes)).take 21 = 0x41 :: a.bytes :=
    List.take_left' (by simp [a.length])
  have hdrop : (0x41 :: a.bytes ++ sha.checksum (0x41 :: a.bytes)).drop 21 =
      sha.checksum (0x41 :: a.bytes) := List.drop_left' (by simp [a.length])
  unfold base58ToHex
  simp only [decode_base58Check, Option.bind_eq_bind, Option.bind_some]
  rw [if_neg (by simp [a.length, (Sha256.checksum_form sha _).1]), htake, hdrop]
  simp

theorem normalize_base58Check (a : Account) :
    normalizeTronAddress sha (base58Check sha a) = some (base58Check sha a) := by
  have hhead := (base58Check_form sha a).1
  have hne : base58Check sha a ≠ [] := by
    intro hnil
    rw [hnil] at hhead
    cases hhead
  obtain ⟨hex, hhex⟩ := Option.isSome_iff_exists.mp (base58ToHex_base58Check sha a)
  rw [normalizeTronAddress, if_neg hne, if_pos hhead, hhex]
  rfl

/-- Bytes of a payload are those of an account. -/
theorem exists_account {bytes : List Nat} (hlength : bytes.length = 21) (hhead : bytes.head? = some 0x41)
    (hlt : ∀ b ∈ bytes, b < 256) : ∃ a : Account, bytes = 0x41 :: a.bytes := by
  cases bytes with
  | nil => cases hhead
  | cons b rest =>
    obtain rfl := Option.some.inj hhead
    exact ⟨⟨rest, by simpa using hlength, fun x hx => hlt x (List.mem_cons_of_mem _ hx)⟩, rfl⟩

theorem normalize_idem {text s : List Char} (h : normalizeTronAddress sha text = some s) :
    normalizeTronAddress sha s = some s := by
  have hnormal := h
  unfold normalizeTronAddress at h
  split_ifs at h with hnil hhead
  · obtain ⟨_, _, rfl⟩ := Option.map_eq_some_iff.mp h
    exact hnormal
  · unfold hexToBase58 at h
    simp only [Option.bind_eq_bind, Option.bind_eq_some_iff] at h
    obtain ⟨payload, _, bytes, hbytes, h⟩ := h
    split_ifs at h with hform
    rw [not_or, not_not, not_not] at hform
    obtain ⟨a, rfl⟩ := exists_account hform.1 hform.2 (decode_lt_byte hbytes)
    obtain rfl := Option.some.inj h
    exact normalize_base58Check sha a

end

/-! ## The loops of the shared warehouse -/

theorem number_zero {bytes : List Nat} (h : ¬ bytes.any (· ≠ 0) = true) : number bytes = 0 := by
  induction bytes with
  | nil => rfl
  | cons b rest ih =>
    simp only [List.any_cons, Bool.or_eq_true, not_or] at h
    have hb : b = 0 := by simpa using h.1
    rw [number_cons, ih h.2, hb]
    simp

/-- The loop spells the digits of the number. -/
theorem spell_digits (bytes : List Nat) : spell bytes = (Nat.digits 58 (number bytes)).map symbol := by
  induction bytes using spell.induct with
  | case1 bytes hany ih =>
    rw [spell, if_pos hany, ih]
    obtain ⟨hvalue, hlt, _⟩ := divide_number bytes 0
    have hr := hlt (by decide)
    have hpos := number_pos hany
    rw [Nat.digits_def' (by decide) hpos, List.map_cons]
    have hmod : number bytes % 58 = (divide bytes 0).2 := by omega
    have hdiv : number bytes / 58 = number (divide bytes 0).1 := by omega
    rw [hmod, hdiv]
  | case2 bytes hany =>
    rw [spell, if_neg hany, number_zero hany]
    simp

theorem spell_encode {bytes : List Nat} (hhead : ∀ d, bytes.head? = some d → d ≠ 0) :
    (spell bytes).reverse = encode bytes := by
  rw [spell_digits, encode, convert_of_head hhead, List.map_reverse]
  rfl

/-- Multiplying by 58 and adding: what does not fit is the carry. -/
theorem mulAdd_number (bytes : List Nat) (carry : Nat) :
    number (mulAdd bytes carry).1 + 256 ^ bytes.length * (mulAdd bytes carry).2 =
      58 * number bytes + carry ∧ (mulAdd bytes carry).1.length = bytes.length ∧
      ∀ b ∈ (mulAdd bytes carry).1, b < 256 := by
  induction bytes with
  | nil => simp [mulAdd, number]
  | cons b rest ih =>
    obtain ⟨hvalue, hlength, hlt⟩ := ih
    refine ⟨?_, by simp [mulAdd, hlength],
      List.forall_mem_cons.mpr ⟨Nat.mod_lt _ (by decide), hlt⟩⟩
    simp only [mulAdd, number_cons, hlength, List.length_cons, Nat.pow_succ]
    have hdiv := Nat.div_add_mod ((mulAdd rest carry).2 + b * 58) 256
    generalize ((mulAdd rest carry).2 + b * 58) / 256 = q at *
    generalize ((mulAdd rest carry).2 + b * 58) % 256 = m at *
    generalize 256 ^ rest.length = p at *
    calc number (mulAdd rest carry).1 + p * m + p * 256 * q
        = number (mulAdd rest carry).1 + p * (256 * q + m) := by ring
      _ = number (mulAdd rest carry).1 + p * ((mulAdd rest carry).2 + b * 58) := by rw [hdiv]
      _ = (number (mulAdd rest carry).1 + p * (mulAdd rest carry).2) + 58 * (p * b) := by ring
      _ = 58 * (number rest + p * b) + carry := by rw [hvalue]; ring

theorem pushSymbol_ok {bytes bytes' : List Nat} {c : Char} (h : pushSymbol bytes c = .ok bytes') :
    ∃ d, digit c = some d ∧ number bytes' = 58 * number bytes + d ∧ bytes'.length = bytes.length ∧
      ∀ b ∈ bytes', b < 256 := by
  obtain ⟨d, hd, h⟩ := bind_ok h
  obtain ⟨_, hcarry, h⟩ := bind_ok h
  obtain rfl := Except.ok.inj h
  obtain ⟨hvalue, hlength, hlt⟩ := mulAdd_number bytes d
  rw [ensure_ok hcarry, Nat.mul_zero, Nat.add_zero] at hvalue
  exact ⟨d, context_ok hd, hvalue, hlength, hlt⟩

/-- The loop reads the number that the text spells in base 58. -/
theorem pushSymbols_ok {text : List Char} {bytes bytes' : List Nat} (hbytes : ∀ b ∈ bytes, b < 256)
    (h : text.foldlM pushSymbol bytes = .ok bytes') :
    ∃ ds, text.mapM digit = some ds ∧
      number bytes' = number bytes * 58 ^ ds.length + Nat.ofDigits 58 ds.reverse ∧
      bytes'.length = bytes.length ∧ ∀ b ∈ bytes', b < 256 := by
  induction text generalizing bytes with
  | nil =>
    obtain rfl := Except.ok.inj h
    exact ⟨[], rfl, by simp, rfl, hbytes⟩
  | cons c text ih =>
    rw [List.foldlM_cons] at h
    obtain ⟨mid, hpush, h⟩ := bind_ok h
    obtain ⟨d, hd, hvalue, hlength, hlt⟩ := pushSymbol_ok hpush
    obtain ⟨ds, hds, hvalue', hlength', hlt'⟩ := ih hlt h
    refine ⟨d :: ds, Numerals.mapM_cons_some.mpr ⟨d, ds, hd, hds, rfl⟩, ?_, hlength'.trans hlength, hlt'⟩
    rw [hvalue', hvalue, List.reverse_cons, Nat.ofDigits_append, Nat.ofDigits_singleton,
      List.length_reverse, List.length_cons, Nat.pow_succ]
    ring

theorem number_replicate (n : Nat) : number (List.replicate n 0) = 0 := by
  refine number_zero ?_
  simp

theorem digits_head_of_T {text : List Char} {ds : List Nat} (hT : text.head? = some 'T')
    (hds : text.mapM digit = some ds) : ∀ d, ds.head? = some d → d ≠ 0 := by
  cases text with
  | nil => cases hT
  | cons c rest =>
    obtain rfl := Option.some.inj hT
    obtain ⟨d, ds, hd, _, rfl⟩ := Numerals.mapM_cons_some.mp hds
    intro x hx
    obtain rfl := Option.some.inj hx
    rintro rfl
    exact absurd hd (by decide)

/-- An accepted base58 text decodes to the bytes of the loop. -/
theorem decode_of_pushSymbols {text : List Char} {bytes : List Nat} (hT : text.head? = some 'T')
    (h : text.foldlM pushSymbol (List.replicate 25 0) = .ok bytes) (hhead : bytes.head? = some 0x41) :
    decode text = some bytes ∧ bytes.length = 25 := by
  obtain ⟨ds, hds, hvalue, hlength, hlt⟩ :=
    pushSymbols_ok (fun b hb => by rw [List.eq_of_mem_replicate hb]; decide) h
  rw [number_replicate, Nat.zero_mul, Nat.zero_add] at hvalue
  refine ⟨?_, by simpa using hlength⟩
  have hfirst := digits_head_of_T hT hds
  have hbytes : ∀ d, bytes.head? = some d → d ≠ 0 := by
    intro d hd
    rw [hhead] at hd
    obtain rfl := Option.some.inj hd
    decide
  rw [decode, hds, Option.map_some, convert_of_head hfirst, ← hvalue]
  exact congrArg some (digits_of_head (by decide) hlt hbytes)

theorem decode_hexDigits {bytes : List Nat} (h : ∀ b ∈ bytes, b < 256) :
    HexText.decode (bytes.flatMap (hexDigits LOWER)) = some bytes := by
  have hnibble : ∀ d < 16, HexText.nibble (LOWER.getD d '0') = some d := by decide
  induction bytes with
  | nil => rfl
  | cons b rest ih =>
    obtain ⟨hb, hrest⟩ := List.forall_mem_cons.mp h
    exact HexText.decode_cons_eq_some.mpr ⟨b / 16, b % 16, rest, hnibble _ (by omega),
      hnibble _ (by omega), ih hrest, by rw [Nat.div_add_mod]⟩

theorem nibble_toLower {c : Char} (h : HexText.isHex c = true) :
    HexText.nibble c.toLower = HexText.nibble c := by
  have hall : ∀ n < 103, HexText.isHex (Char.ofNat n) = true →
      HexText.nibble (Char.ofNat n).toLower = HexText.nibble (Char.ofNat n) := by decide
  have hlt : c.toNat < 103 := Nat.lt_succ_of_le (HexText.toNat_le_of_isHex h)
  have hone := hall c.toNat hlt
  rw [Char.ofNat_toNat] at hone
  exact hone h

theorem decode_toLower {cs : List Char} (h : cs.all HexText.isHex = true) :
    HexText.decode (cs.map Char.toLower) = HexText.decode cs := by
  induction cs using HexText.decode.induct with
  | case1 => rfl
  | case2 high low rest ih =>
    simp only [List.all_cons, Bool.and_eq_true] at h
    obtain ⟨hhigh, hlow, hrest⟩ := h
    simp only [List.map_cons, HexText.decode, nibble_toLower hhigh, nibble_toLower hlow, ih hrest]
  | case3 c => rfl

/-! ## One address for an account -/

section
variable (sha : Sha256)

/-- Whatever the shared function accepts, both functions give the same address. -/
theorem wallet_agrees {text s : List Char} (h : tronWallet sha text = .ok s) :
    normalizeTronAddress sha text = some s := by
  obtain ⟨hexText, hcontract, h⟩ := bind_ok h
  obtain ⟨bytes, hbytes, h⟩ := bind_ok h
  have hbytes := context_ok hbytes
  obtain rfl := Except.ok.inj h
  unfold tronContract at hcontract
  split_ifs at hcontract with hform
  · -- a hexadecimal text
    obtain ⟨htake, hhex⟩ := hform
    obtain rfl := Except.ok.inj hcontract
    have hhex : text.length = 42 ∧ text.all HexText.isHex = true := by simpa [hex] using hhex
    rw [decode_toLower hhex.2] at hbytes
    have hlength : bytes.length = 21 := by
      have h := decode_length hbytes
      omega
    have hhead : bytes.head? = some 0x41 := by
      cases bytes with
      | nil => cases hlength
      | cons b rest => rw [(take_tron hbytes).mp htake]; rfl
    obtain ⟨a, rfl⟩ := exists_account hlength hhead (decode_lt_byte hbytes)
    have hspells : SpellsBytes ([0x41] ++ a.bytes) text := ⟨text, hbytes, Or.inl rfl⟩
    rw [normalize_spells sha hspells (Or.inr (Or.inl rfl)), spell_encode]
    · rfl
    · intro d hd
      obtain rfl := Option.some.inj hd
      decide
  · -- a base58 text
    obtain ⟨_, hidentity, hcontract⟩ := bind_ok hcontract
    obtain ⟨decoded, hloop, hcontract⟩ := bind_ok hcontract
    obtain ⟨_, hchecked, hcontract⟩ := bind_ok hcontract
    obtain rfl := Except.ok.inj hcontract
    obtain ⟨_, hT⟩ := ensure_ok hidentity
    obtain ⟨hhead, hsum⟩ := ensure_ok hchecked
    obtain ⟨hdecode, hlength⟩ := decode_of_pushSymbols hT hloop hhead
    rw [decode_hexDigits fun b hb => decode_lt hdecode b (List.mem_of_mem_take hb),
      Option.some.injEq] at hbytes
    subst hbytes
    rw [← hsum, List.take_append_drop, spell_encode (fun d hd => by
      rw [hhead] at hd
      obtain rfl := Option.some.inj hd
      decide), encode_decode hdecode]
    have hne : text ≠ [] := by
      rintro rfl
      cases hT
    have hraw : (decoded.take 21).head? = some 0x41 := by
      cases decoded with
      | nil => cases hhead
      | cons b rest => exact hhead
    have hsome : (base58ToHex sha text).isSome := by
      unfold base58ToHex
      simp only [hdecode, Option.bind_eq_bind, Option.bind_some]
      rw [if_neg (by omega), if_neg (by simp [hraw]), if_neg (by simp [hsum])]
      rfl
    obtain ⟨hexed, hhexed⟩ := Option.isSome_iff_exists.mp hsome
    rw [normalizeTronAddress, if_neg hne, if_pos hT, hhexed]
    rfl

theorem normalize_spelling {a : Account} {text : List Char} (h : Spelling sha a text) :
    normalizeTronAddress sha text = some (base58Check sha a) := by
  cases h with
  | plain h => exact normalize_spells sha (show SpellsBytes ([] ++ a.bytes) text from h) (Or.inl rfl)
  | tron h =>
    exact normalize_spells sha (show SpellsBytes ([0x41] ++ a.bytes) text from h) (Or.inr (Or.inl rfl))
  | word h => exact normalize_spells sha h (Or.inr (Or.inr (by simp)))
  | base58 => exact normalize_base58Check sha a

end

/-- The spellings of TRON accounts, for all texts. All spellings of an account have one address and
those of two accounts have two, an address is its own, and the shared function agrees; but a word of
32 bytes that is not the padding of an account is taken for one all the same. -/
theorem one_address_iff (sha : Sha256) :
    (∀ a text, Spelling sha a text → normalizeTronAddress sha text = some (base58Check sha a)) ∧
    (∀ a b text other, Spelling sha a text → Spelling sha b other →
      normalizeTronAddress sha text = normalizeTronAddress sha other → a = b) ∧
    (∀ text s, normalizeTronAddress sha text = some s → normalizeTronAddress sha s = some s) ∧
    (∀ text s, tronWallet sha text = .ok s → normalizeTronAddress sha text = some s) ∧
    ∀ upper (a : Account) text, upper.length = 12 → SpellsBytes (upper ++ a.bytes) text →
      ((¬ Padded upper → normalizeTronAddress sha text = none) ↔ Padded upper) := by
  refine ⟨fun a text => normalize_spelling sha, fun a b text other ha hb h => ?_,
    fun text s => normalize_idem sha, fun text s => wallet_agrees sha,
    fun upper a text hlength hspells => ⟨fun h => ?_, fun h hn => absurd h hn⟩⟩
  · rw [normalize_spelling sha ha, normalize_spelling sha hb, Option.some.injEq] at h
    exact base58Check_inj sha h
  · by_contra hpadded
    have hread := normalize_spells sha hspells (Or.inr (Or.inr (by omega)))
    rw [h hpadded] at hread
    cases hread

/-- A digest function; the word below is read before any digest is compared. -/
def sampleSha : Sha256 where
  digest _ := List.replicate 32 0
  length _ := by simp
  lt _ b hb := by rw [List.eq_of_mem_replicate hb]; decide

def sampleAccount : Account where
  bytes := List.replicate 20 0x11
  length := by decide
  lt b hb := by rw [List.eq_of_mem_replicate hb]; decide

/-- Sixty-four digits whose upper twelve bytes are no padding. -/
def crafted : List Char := List.replicate 24 'f' ++ List.replicate 40 '1'

theorem crafted_word_accepted : ¬ ∀ (sha : Sha256) (upper : List Nat) (a : Account) (text : List Char),
    upper.length = 12 → SpellsBytes (upper ++ a.bytes) text → ¬ Padded upper →
      normalizeTronAddress sha text = none := by
  intro h
  have hdecode : HexText.decode crafted = some (List.replicate 12 0xff ++ sampleAccount.bytes) := by decide
  have hnone := h sampleSha (List.replicate 12 0xff) sampleAccount crafted (by decide)
    ⟨crafted, hdecode, Or.inl rfl⟩ (by unfold Padded; decide)
  have hread := normalize_spells sampleSha (a := sampleAccount) ⟨crafted, hdecode, Or.inl rfl⟩
    (Or.inr (Or.inr (by decide)))
  rw [hnone] at hread
  cases hread

end AmlReal.Tron.AddressForms
