import AmlReal.Tron.AddressForms

/-! # The identity of a TRON wallet

Both functions of the shared warehouse read a text as the account it names: the
hexadecimal form is for contracts, the base58check form for wallets. -/

namespace AmlReal.Tron.WalletIdentity
open AmlReal.Foundations AmlReal.Foundations.Checks AmlReal.Foundations.Base58
open AmlReal.Tron.AddressSpellings AmlReal.Tron.AddressForms

/-- The form of an account as a contract. -/
def contractForm (a : Account) : List Char := (0x41 :: a.bytes).flatMap (hexDigits LOWER)

/-- The texts that name an account: the hexadecimal digits of its 21 bytes, or its base58check. -/
def Names (sha : Sha256) (a : Account) (text : List Char) : Prop :=
  HexText.decode text = some (0x41 :: a.bytes) ∨ text = base58Check sha a

/-! ## The values of the 32-bit variables -/

/-- The sums that `carry` takes while one character is added. -/
def sums : List Nat → Nat → List Nat
  | [], _ => []
  | byte :: rest, carry => ((mulAdd rest carry).2 + byte * 58) :: sums rest carry

/-- The sums that `carry` takes while a text is read. -/
def contractSums : List Nat → List Char → List Nat
  | _, [] => []
  | bytes, character :: text =>
    match digit character with
    | none => []
    | some carry => sums bytes carry ++ match pushSymbol bytes character with
      | .error _ => []
      | .ok bytes => contractSums bytes text

/-- The values that are divided for one digit. -/
def dividends : List Nat → Nat → List Nat
  | [], _ => []
  | byte :: rest, remainder =>
    (remainder * 256 + byte) :: dividends rest ((remainder * 256 + byte) % 58)

/-- The values that are divided while the bytes are spelled. -/
def walletDividends (bytes : List Nat) : List Nat :=
  if bytes.any (· ≠ 0) then dividends bytes 0 ++ walletDividends (divide bytes 0).1 else []
termination_by number bytes
decreasing_by exact divide_lt (by assumption)

/-- A carry stays below 58. -/
theorem sums_lt {bytes : List Nat} (hbytes : ∀ b ∈ bytes, b < 256) {carry : Nat} (hcarry : carry < 58) :
    (∀ s ∈ sums bytes carry, s < 2 ^ 32) ∧ (mulAdd bytes carry).2 < 58 := by
  induction bytes with
  | nil => exact ⟨by simp [sums], hcarry⟩
  | cons b rest ih =>
    obtain ⟨hb, hrest⟩ := List.forall_mem_cons.mp hbytes
    obtain ⟨hsums, hlt⟩ := ih hrest
    refine ⟨List.forall_mem_cons.mpr ⟨by omega, hsums⟩, ?_⟩
    show ((mulAdd rest carry).2 + b * 58) / 256 < 58
    omega

theorem contractSums_lt {bytes : List Nat} (hbytes : ∀ b ∈ bytes, b < 256) (text : List Char) :
    ∀ s ∈ contractSums bytes text, s < 2 ^ 32 := by
  induction text generalizing bytes with
  | nil => simp [contractSums]
  | cons c text ih =>
    unfold contractSums
    cases hdigit : digit c with
    | none => simp
    | some d =>
      refine List.forall_mem_append.mpr ⟨(sums_lt hbytes (digit_some hdigit).1).1, ?_⟩
      cases hpush : pushSymbol bytes c with
      | error e => simp
      | ok bytes' =>
        obtain ⟨_, _, _, _, hlt⟩ := pushSymbol_ok hpush
        exact ih hlt

/-- A remainder stays below 58, so each quotient is a byte. -/
theorem dividends_lt {bytes : List Nat} (hbytes : ∀ b ∈ bytes, b < 256) {remainder : Nat}
    (hremainder : remainder < 58) :
    (∀ v ∈ dividends bytes remainder, v < 2 ^ 32) ∧ ∀ b ∈ (divide bytes remainder).1, b < 256 := by
  induction bytes generalizing remainder with
  | nil => simp [dividends, divide]
  | cons b rest ih =>
    obtain ⟨hb, hrest⟩ := List.forall_mem_cons.mp hbytes
    obtain ⟨hdividends, hquotients⟩ := ih hrest (Nat.mod_lt (remainder * 256 + b) (by decide))
    refine ⟨List.forall_mem_cons.mpr ⟨by omega, hdividends⟩, List.forall_mem_cons.mpr ⟨?_, hquotients⟩⟩
    show (remainder * 256 + b) / 58 < 256
    omega

theorem walletDividends_lt {bytes : List Nat} (hbytes : ∀ b ∈ bytes, b < 256) :
    ∀ v ∈ walletDividends bytes, v < 2 ^ 32 := by
  induction bytes using walletDividends.induct with
  | case1 bytes hany ih =>
    obtain ⟨hdividends, hquotients⟩ := dividends_lt hbytes (show 0 < 58 by decide)
    rw [walletDividends, if_pos hany]
    exact List.forall_mem_append.mpr ⟨hdividends, ih hquotients⟩
  | case2 bytes hany =>
    rw [walletDividends, if_neg hany]
    simp

/-! ## Reading hexadecimal texts -/

theorem lower_digit {c : Char} {d : Nat} (h : HexText.nibble c = some d) :
    LOWER.getD d '0' = c.toLower := by
  have hall : ∀ n < 103, ∀ d < 16, HexText.nibble (Char.ofNat n) = some d →
      LOWER.getD d '0' = (Char.ofNat n).toLower := by decide +kernel
  have hlt : c.toNat < 103 := Nat.lt_succ_of_le (HexText.toNat_le_of_isHex (by rw [HexText.isHex, h]; rfl))
  have hone := hall c.toNat hlt d (Numerals.nibble_lt h)
  rw [Char.ofNat_toNat] at hone
  exact hone h

/-- The digits of the bytes are those of the text in lower case. -/
theorem toLower_decode {text : List Char} {bytes : List Nat} (h : HexText.decode text = some bytes) :
    text.map Char.toLower = bytes.flatMap (hexDigits LOWER) := by
  induction text using HexText.decode.induct generalizing bytes with
  | case1 =>
    cases h
    rfl
  | case2 high low rest ih =>
    obtain ⟨hi, lo, tail, hhigh, hlow, htail, rfl⟩ := HexText.decode_cons_eq_some.mp h
    have hlo := Numerals.nibble_lt hlow
    rw [List.map_cons, List.map_cons, ih htail, List.flatMap_cons]
    show _ = [LOWER.getD ((16 * hi + lo) / 16) '0', LOWER.getD ((16 * hi + lo) % 16) '0'] ++ _
    rw [show (16 * hi + lo) / 16 = hi by omega, show (16 * hi + lo) % 16 = lo by omega,
      lower_digit hhigh, lower_digit hlow]
    rfl
  | case3 c => cases h

theorem decode_contractForm (a : Account) : HexText.decode (contractForm a) = some (0x41 :: a.bytes) :=
  decode_hexDigits (List.forall_mem_cons.mpr ⟨by decide, a.lt⟩)

theorem contractForm_inj {a b : Account} (h : contractForm a = contractForm b) : a = b := by
  have hdecode := decode_contractForm a
  rw [h, decode_contractForm b, Option.some.injEq] at hdecode
  exact Account.ext (List.cons.inj hdecode).2.symm

/-- The check of `tron_contract` for a hexadecimal text. -/
theorem hex_form {text : List Char} :
    text.take 2 = ['4', '1'] ∧ hex text 42 = true ↔ ∃ a : Account, HexText.decode text = some (0x41 :: a.bytes) := by
  constructor
  · rintro ⟨htake, hhex⟩
    obtain ⟨hlength, hall⟩ : text.length = 42 ∧ text.all HexText.isHex = true := by simpa [hex] using hhex
    obtain ⟨bytes, hbytes⟩ := HexText.exists_decode hall (by omega)
    have hcount : bytes.length = 21 := by
      have h := decode_length hbytes
      omega
    cases bytes with
    | nil => cases hcount
    | cons b rest =>
      have hb := (take_tron hbytes).mp htake
      obtain ⟨a, ha⟩ := exists_account hcount (by rw [hb]; rfl) (decode_lt_byte hbytes)
      exact ⟨a, by rw [hbytes, ha]⟩
  · rintro ⟨a, hdecode⟩
    refine ⟨(take_tron hdecode).mpr rfl, ?_⟩
    have hlength := decode_length hdecode
    rw [List.length_cons, a.length] at hlength
    simp [hex, hlength, HexText.isHex_of_decode hdecode]

section
variable (sha : Sha256)

theorem contract_hex {a : Account} {text : List Char} (h : HexText.decode text = some (0x41 :: a.bytes)) :
    tronContract sha text = .ok (contractForm a) := by
  rw [tronContract, if_pos (hex_form.mpr ⟨a, h⟩), toLower_decode h]
  rfl

/-! ## Reading base58 texts -/

/-- What fits into the bytes leaves no carry. -/
theorem pushSymbol_fits {bytes : List Nat} {c : Char} {d : Nat} (hd : digit c = some d)
    (hfits : 58 * number bytes + d < 256 ^ bytes.length) : pushSymbol bytes c = .ok (mulAdd bytes d).1 := by
  obtain ⟨hvalue, _, _⟩ := mulAdd_number bytes d
  have hcarry : (mulAdd bytes d).2 = 0 := by
    by_contra hne
    have hle : 256 ^ bytes.length ≤ 256 ^ bytes.length * (mulAdd bytes d).2 :=
      Nat.le_mul_of_pos_right _ (Nat.pos_of_ne_zero hne)
    omega
  show (context (digit c) _ >>= fun carry => _) = _
  rw [hd, context_some, ok_bind]
  show (ensure ((mulAdd bytes d).2 = 0) _ >>= fun _ => _) = _
  rw [ensure_eq hcarry]
  rfl

/-- A number that fits is read to its end. -/
theorem pushSymbols_fits {text : List Char} {ds : List Nat} (hds : text.mapM digit = some ds)
    {bytes : List Nat} (hfits : number bytes * 58 ^ ds.length + Nat.ofDigits 58 ds.reverse < 256 ^ bytes.length) :
    ∃ bytes', text.foldlM pushSymbol bytes = .ok bytes' := by
  induction text generalizing bytes ds with
  | nil => exact ⟨bytes, rfl⟩
  | cons c text ih =>
    obtain ⟨d, rest, hd, hrest, rfl⟩ := Numerals.mapM_cons_some.mp hds
    have hsum : number bytes * 58 ^ (d :: rest).length + Nat.ofDigits 58 (d :: rest).reverse =
        (58 * number bytes + d) * 58 ^ rest.length + Nat.ofDigits 58 rest.reverse := by
      rw [List.reverse_cons, Nat.ofDigits_append, Nat.ofDigits_singleton, List.length_reverse,
        List.length_cons, Nat.pow_succ]
      ring
    rw [hsum] at hfits
    have hone : 58 * number bytes + d < 256 ^ bytes.length := by
      refine Nat.lt_of_le_of_lt ?_ hfits
      exact (Nat.le_mul_of_pos_right _ (Nat.pow_pos (by decide))).trans (Nat.le_add_right _ _)
    have hpush := pushSymbol_fits hd hone
    obtain ⟨d', hd', hvalue, hlength, _⟩ := pushSymbol_ok hpush
    obtain rfl : d = d' := Option.some.inj (hd.symm.trans hd')
    rw [List.foldlM_cons, hpush, ok_bind]
    exact ih hrest (by rwa [hvalue, hlength])

theorem bytes_base58Check (a : Account) :
    (base58Check sha a).foldlM pushSymbol (List.replicate 25 0) =
      .ok (0x41 :: a.bytes ++ sha.checksum (0x41 :: a.bytes)) := by
  have hdecode := decode_base58Check sha a
  have hlt := decode_lt hdecode
  obtain ⟨hT, _⟩ := base58Check_form sha a
  have hcount : (0x41 :: a.bytes ++ sha.checksum (0x41 :: a.bytes)).length = 25 := by
    simp [a.length, (Sha256.checksum_form sha _).1]
  generalize hbytes : 0x41 :: a.bytes ++ sha.checksum (0x41 :: a.bytes) = bytes at *
  -- the digits of the text, and the number they spell
  obtain ⟨ds, hds, hconvert⟩ := Option.map_eq_some_iff.mp hdecode
  have hhead : ∀ d, ds.head? = some d → d ≠ 0 := digits_head_of_T hT hds
  have hnumber : Nat.ofDigits 58 ds.reverse = number bytes := by
    rw [← hconvert, number, convert_of_head hhead, List.reverse_reverse, Nat.ofDigits_digits]
  have hfits : number bytes < 256 ^ 25 := by
    have h := Nat.ofDigits_lt_base_pow_length (b := 256) (l := bytes.reverse) (by decide)
      fun b hb => hlt b (List.mem_reverse.mp hb)
    rwa [List.length_reverse, hcount] at h
  have hroom : number (List.replicate 25 0) * 58 ^ ds.length + Nat.ofDigits 58 ds.reverse <
      256 ^ (List.replicate 25 0).length := by
    rw [number_replicate, Nat.zero_mul, Nat.zero_add, hnumber, List.length_replicate]
    exact hfits
  obtain ⟨bytes', hloop⟩ := pushSymbols_fits hds hroom
  obtain ⟨ds', hds', hvalue, hlength, hlt'⟩ :=
    pushSymbols_ok (fun b hb => by rw [List.eq_of_mem_replicate hb]; decide) hloop
  obtain rfl : ds = ds' := Option.some.inj (hds.symm.trans hds')
  rw [number_replicate, Nat.zero_mul, Nat.zero_add, hnumber] at hvalue
  rw [List.length_replicate] at hlength
  have hreverse := Nat.ofDigits_inj_of_len_eq (b := 256) (by decide) (by simp [hlength, hcount])
    (fun b hb => hlt' b (List.mem_reverse.mp hb)) (fun b hb => hlt b (List.mem_reverse.mp hb)) hvalue
  rw [hloop, List.reverse_injective hreverse]

theorem utf8Size_base58 {c : Char} {d : Nat} (h : digit c = some d) : c.utf8Size = 1 := by
  have hall : ∀ d < 58, (symbol d).utf8Size = 1 := by decide +kernel
  obtain ⟨hlt, rfl⟩ := digit_some h
  exact hall d hlt

theorem byteLength_base58 {text : List Char} {ds : List Nat} (h : text.mapM digit = some ds) :
    byteLength text = text.length := by
  induction text generalizing ds with
  | nil => rfl
  | cons c text ih =>
    obtain ⟨d, rest, hd, hrest, rfl⟩ := Numerals.mapM_cons_some.mp h
    have htail := ih hrest
    rw [byteLength] at htail ⊢
    rw [List.map_cons, List.sum_cons, htail, utf8Size_base58 hd, List.length_cons, Nat.add_comm]

theorem contract_base58 (a : Account) : tronContract sha (base58Check sha a) = .ok (contractForm a) := by
  obtain ⟨hT, hlength⟩ := base58Check_form sha a
  obtain ⟨ds, hds, _⟩ := Option.map_eq_some_iff.mp (decode_base58Check sha a)
  have htake : ¬ ((base58Check sha a).take 2 = ['4', '1'] ∧ hex (base58Check sha a) 42 = true) := by
    rintro ⟨htake, _⟩
    cases htext : base58Check sha a with
    | nil => rw [htext] at hT; cases hT
    | cons c rest =>
      rw [htext] at hT htake
      obtain rfl := Option.some.inj hT
      cases rest with
      | nil => cases htake
      | cons _ _ => exact absurd (List.cons.inj htake).1 (by decide)
  have hsplit : (0x41 :: a.bytes ++ sha.checksum (0x41 :: a.bytes)).take 21 = 0x41 :: a.bytes :=
    List.take_left' (by simp [a.length])
  have hdrop : (0x41 :: a.bytes ++ sha.checksum (0x41 :: a.bytes)).drop 21 =
      sha.checksum (0x41 :: a.bytes) := List.drop_left' (by simp [a.length])
  rw [tronContract, if_neg htake, ensure_eq ⟨(byteLength_base58 hds).trans hlength, hT⟩, ok_bind,
    bytes_base58Check, ok_bind, hsplit, hdrop, ensure_eq ⟨rfl, rfl⟩]
  rfl

/-! ## Names -/

/-- What the contract function accepts, and what it gives. -/
theorem tronContract_ok {text form : List Char} :
    tronContract sha text = .ok form ↔ ∃ a, Names sha a text ∧ form = contractForm a := by
  constructor
  · intro h
    by_cases hform : text.take 2 = ['4', '1'] ∧ hex text 42 = true
    · obtain ⟨a, hdecode⟩ := hex_form.mp hform
      rw [contract_hex sha hdecode] at h
      exact ⟨a, Or.inl hdecode, (Except.ok.inj h).symm⟩
    · rw [tronContract, if_neg hform] at h
      obtain ⟨_, hidentity, h⟩ := bind_ok h
      obtain ⟨bytes, hloop, h⟩ := bind_ok h
      obtain ⟨_, hchecked, h⟩ := bind_ok h
      obtain rfl := Except.ok.inj h
      obtain ⟨_, hT⟩ := ensure_ok hidentity
      obtain ⟨hhead, hsum⟩ := ensure_ok hchecked
      obtain ⟨hdecode, hlength⟩ := decode_of_pushSymbols hT hloop hhead
      have hraw : (bytes.take 21).head? = some 0x41 := by rwa [List.head?_take, if_neg (by decide)]
      obtain ⟨a, ha⟩ := exists_account (by rw [List.length_take, hlength]; rfl) hraw
        fun b hb => decode_lt hdecode b (List.mem_of_mem_take hb)
      refine ⟨a, Or.inr ?_, by rw [ha]; rfl⟩
      rw [← encode_decode hdecode, ← List.take_append_drop 21 bytes, hsum, ha]
      rfl
  · rintro ⟨a, hname | rfl, rfl⟩
    · exact contract_hex sha hname
    · exact contract_base58 sha a

/-- The wallet function spells the account. -/
theorem wallet_of_name {a : Account} {text : List Char} (h : Names sha a text) :
    tronWallet sha text = .ok (base58Check sha a) := by
  have hhead : ∀ d, (0x41 :: a.bytes ++ sha.checksum (0x41 :: a.bytes)).head? = some d → d ≠ 0 := by
    intro d hd
    obtain rfl := Option.some.inj hd
    decide
  rw [tronWallet, (tronContract_ok sha).mpr ⟨a, h, rfl⟩, ok_bind, decode_contractForm, context_some,
    ok_bind, spell_encode hhead]
  rfl

theorem tronWallet_ok {text wallet : List Char} :
    tronWallet sha text = .ok wallet ↔ ∃ a, Names sha a text ∧ wallet = base58Check sha a := by
  constructor
  · intro h
    obtain ⟨form, hform, _⟩ := bind_ok h
    obtain ⟨a, hname, _⟩ := (tronContract_ok sha).mp hform
    rw [wallet_of_name sha hname] at h
    exact ⟨a, hname, (Except.ok.inj h).symm⟩
  · rintro ⟨a, hname, rfl⟩
    exact wallet_of_name sha hname

theorem name_unique {a b : Account} {text : List Char} (ha : Names sha a text) (hb : Names sha b text) :
    a = b := by
  have h := wallet_of_name sha ha
  rw [wallet_of_name sha hb] at h
  exact base58Check_inj sha (Except.ok.inj h).symm

/-- Base58 texts of the length of an address that no hexadecimal text is. -/
theorem base58_name {a : Account} {text : List Char} (hlength : text.length = 34)
    (h : Names sha a text) : text = base58Check sha a := by
  refine h.resolve_left fun hdecode => ?_
  have hdigits := decode_length hdecode
  rw [hlength, List.length_cons, a.length] at hdigits
  omega

theorem base58Check_chars (a : Account) : ∀ c ∈ base58Check sha a, c ∈ ALPHABET := by
  intro c hc
  obtain ⟨ds, hds, _⟩ := Option.map_eq_some_iff.mp (decode_base58Check sha a)
  obtain ⟨d, hd⟩ := Option.isSome_iff_exists.mp (Numerals.mapM_isSome hds c hc)
  obtain ⟨hlt, hsymbol, _⟩ := List.findIdx?_eq_some_iff_getElem.mp hd
  rw [← of_decide_eq_true hsymbol]
  exact List.getElem_mem hlt

end

/-- The round trip of wallet identities, for every digest function. -/
theorem wallet_round_trip (sha : Sha256) :
    (∀ text : List Char, text.length = 42 → text.all HexText.isHex = true → text.take 2 = ['4', '1'] →
      ∃ wallet, tronWallet sha text = .ok wallet ∧ wallet.length = 34 ∧ (∀ c ∈ wallet, c ∈ ALPHABET) ∧
        wallet.head? = some 'T' ∧ tronContract sha wallet = .ok (text.map Char.toLower)) ∧
    (∀ text form : List Char, text.length = 34 → (∀ c ∈ text, c ∈ ALPHABET) →
      tronContract sha text = .ok form → tronWallet sha text = .ok text) ∧
    (∀ text wallet, tronWallet sha text = .ok wallet → tronWallet sha wallet = .ok wallet) ∧
    (∀ text other wallet wallet', tronWallet sha text = .ok wallet → tronWallet sha other = .ok wallet' →
      ((∃ a, Names sha a text ∧ Names sha a other) ↔ wallet = wallet')) ∧
    (∀ text, ∀ s ∈ contractSums (List.replicate 25 0) text, s < 2 ^ 32) ∧
    ∀ text form bytes, tronContract sha text = .ok form → HexText.decode form = some bytes →
      ∀ v ∈ walletDividends (bytes ++ sha.checksum bytes), v < 2 ^ 32 := by
  refine ⟨fun text hlength hall htake => ?_, fun text form hlength _ h => ?_, fun text wallet h => ?_,
    fun text other wallet wallet' h h' => ?_, fun text => ?_, fun text form bytes h hbytes => ?_⟩
  · obtain ⟨a, hdecode⟩ := hex_form.mp ⟨htake, by simp [hex, hlength, hall]⟩
    obtain ⟨hT, hcount⟩ := base58Check_form sha a
    exact ⟨_, wallet_of_name sha (Or.inl hdecode), hcount, base58Check_chars sha a, hT,
      by rw [contract_base58, toLower_decode hdecode]; rfl⟩
  · obtain ⟨a, hname, _⟩ := (tronContract_ok sha).mp h
    rw [wallet_of_name sha hname, ← base58_name sha hlength hname]
  · obtain ⟨a, _, rfl⟩ := (tronWallet_ok sha).mp h
    exact wallet_of_name sha (Or.inr rfl)
  · obtain ⟨a, ha, rfl⟩ := (tronWallet_ok sha).mp h
    obtain ⟨b, hb, rfl⟩ := (tronWallet_ok sha).mp h'
    constructor
    · rintro ⟨c, hc, hc'⟩
      rw [name_unique sha ha hc, name_unique sha hb hc']
    · intro heq
      obtain rfl := base58Check_inj sha heq
      exact ⟨a, ha, hb⟩
  · exact contractSums_lt (fun b hb => by rw [List.eq_of_mem_replicate hb]; decide) text
  · obtain ⟨a, _, rfl⟩ := (tronContract_ok sha).mp h
    rw [decode_contractForm, Option.some.injEq] at hbytes
    subst hbytes
    refine walletDividends_lt (List.forall_mem_append.mpr ⟨?_, (Sha256.checksum_form sha _).2⟩)
    exact List.forall_mem_cons.mpr ⟨by decide, a.lt⟩

theorem wallet_round_trip_sample :
    (∃ wallet, tronWallet sampleSha ('4' :: '1' :: List.replicate 40 'A') = .ok wallet ∧
      wallet.length = 34 ∧ (∀ c ∈ wallet, c ∈ ALPHABET) ∧ wallet.head? = some 'T' ∧
      tronContract sampleSha wallet = .ok ('4' :: '1' :: List.replicate 40 'a')) ∧
    tronWallet sampleSha (base58Check sampleSha sampleAccount) = .ok (base58Check sampleSha sampleAccount) :=
  ⟨(wallet_round_trip sampleSha).1 ('4' :: '1' :: List.replicate 40 'A') (by decide) (by decide) (by decide),
    (wallet_round_trip sampleSha).2.1 _ _ (base58Check_form sampleSha sampleAccount).2
      (base58Check_chars sampleSha sampleAccount) (contract_base58 sampleSha sampleAccount)⟩

end AmlReal.Tron.WalletIdentity
