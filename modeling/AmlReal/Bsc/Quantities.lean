import AmlReal.Foundations.Numerals
import AmlReal.Bsc.BlockMatching

/-! # 256-bit quantities

`EvmU256` of `ingestion/model.rs`: 32 bytes, least significant first, with the
loops that read, multiply and print them. A step that would stop the process is
an error of its own kind, so that each result below also says it does not
happen. The natural numbers of the other modules are the values of these words. -/

namespace AmlReal.Bsc.Quantities
open AmlReal.Foundations AmlReal.Foundations.Checks AmlReal.Foundations.Numerals
open AmlReal.Warehouse.Values AmlReal.Bsc.Model AmlReal.Bsc.BlockMatching

inductive Panic where
  | overflow
  | outOfBounds
  | expected (message : String)
  | unfinished
  deriving DecidableEq

structure EvmU256 where
  bytes : List UInt8
  size : bytes.length = 32

/-- `str::as_bytes` -/
def asBytes (s : String) : List UInt8 := s.toList.flatMap String.utf8EncodeChar

def nibbleOf (value : UInt8) : Option UInt8 :=
  if 48 ≤ value ∧ value ≤ 57 then some (value - 48)
  else if 97 ≤ value ∧ value ≤ 102 then some (value - 97 + 10)
  else if 65 ≤ value ∧ value ≤ 70 then some (value - 65 + 10)
  else none

def quantityBytes (field value : String) : Except DecodeError (List UInt8) := do
  let hex ← context (stripPrefix "0x" value) (.invalidField field "quantity is not 0x-prefixed")
  ensure (asBytes hex ≠ [] ∧ ¬ (1 < (asBytes hex).length ∧ hex.toList.head? = some '0'))
    (.invalidField field "quantity is empty or has leading zeroes")
  pure (asBytes hex)

/-- The digits from the last to the first, two to a byte. -/
def pairBytes : List UInt8 → Option (List UInt8)
  | [] => some []
  | [low] => do
    let l ← nibbleOf low
    some [l ||| ((0 : UInt8) <<< 4)]
  | low :: high :: rest => do
    let l ← nibbleOf low
    let h ← nibbleOf high
    let bytes ← pairBytes rest
    some ((l ||| (h <<< 4)) :: bytes)

namespace EvmU256

/-- An array of zeros whose first bytes have been written. -/
def ofBytes (bytes : List UInt8) : EvmU256 :=
  ⟨(bytes ++ List.replicate 32 0).take 32, by simp⟩

def parse (field value : String) : Except DecodeError EvmU256 := do
  let hex ← quantityBytes field value
  ensure (hex.length ≤ 64) (.invalidField field "quantity exceeds 256 bits")
  let bytes ← context (pairBytes hex.reverse)
    (.invalidField field "quantity contains non-hex characters")
  pure (ofBytes bytes)

end EvmU256

/-- Arithmetic in a type with values below `bound`. -/
def fits (bound n : Nat) : Except Panic Nat := if n < bound then .ok n else .error .overflow

/-- `u8::try_from(n).expect(message)` -/
def toByte (n : Nat) (message : String) : Except Panic UInt8 :=
  if n < 256 then .ok (UInt8.ofNat n) else .error (.expected message)

/-- The limbs of a product, least significant first, and the last carry. -/
def mulLimbs (rhs : Nat) : List (List UInt8) → Nat → Except Panic (List UInt8 × Nat)
  | [], carry => .ok ([], carry)
  | limb :: limbs, carry => do
    let product ← fits (2 ^ 128) (leValue limb * rhs)
    let product ← fits (2 ^ 128) (product + carry)
    let (output, last) ← mulLimbs rhs limbs (product / 2 ^ 64)
    pure (toLeBytes 8 product ++ output, last)

/-- One division by ten, from the most significant byte down. -/
def divTen : List UInt8 → Nat → Except Panic (List UInt8 × Nat)
  | [], remainder => .ok ([], remainder)
  | byte :: bytes, remainder => do
    let shifted ← fits (2 ^ 16) (remainder * 256)
    let value ← fits (2 ^ 16) (shifted + byte.toNat)
    let quotient ← toByte (value / 10) "base-256 division quotient fits u8"
    let (quotients, last) ← divTen bytes (value % 10)
    pure (quotient :: quotients, last)

/-- The decimal digits, last digit first. -/
def decimalDigits : Nat → List UInt8 → Except Panic (List Char)
  | 0, quotient => if quotient.any (· ≠ 0) then .error .unfinished else .ok []
  | rounds + 1, quotient =>
    if quotient.any (· ≠ 0) then do
      let (bytes, remainder) ← divTen quotient.reverse 0
      let digit ← toByte remainder "decimal remainder fits u8"
      let character ← fits (2 ^ 8) (48 + digit.toNat)
      let digits ← decimalDigits rounds bytes.reverse
      pure (Char.ofNat character :: digits)
    else .ok []

namespace EvmU256

def toNat (u : EvmU256) : Nat := leValue u.bytes

def limb (u : EvmU256) (index : Nat) : List UInt8 := (u.bytes.drop (8 * index)).take 8

def checkedMulU64 (u : EvmU256) (rhs : UInt64) : Except Panic (Option EvmU256) := do
  let (output, carry) ← mulLimbs rhs.toNat ((List.range 4).map u.limb) 0
  pure (if carry = 0 then some (ofBytes output) else none)

def fromBeWord (bytes : List UInt8) : Option EvmU256 :=
  if h : bytes.length = 32 then some ⟨bytes.reverse, by simpa using h⟩ else none

def isZero (u : EvmU256) : Bool := u.bytes.all (· = 0)

/-- 78 rounds reach zero from every 256-bit number. -/
def decimalString (u : EvmU256) : Except Panic String :=
  if u.isZero then .ok "0" else do
    let digits ← decimalDigits 78 u.bytes
    pure (String.ofList digits.reverse)

def asU64 (u : EvmU256) (field : String) : Except DecodeError Nat := do
  ensure (¬ (u.bytes.drop 8).any (· ≠ 0)) (.invalidField field "quantity exceeds UInt64")
  pure (leValue (u.bytes.take 8))

theorem toNat_lt (u : EvmU256) : u.toNat < 2 ^ 256 := by
  have h := leValue_lt u.bytes
  rw [u.size] at h
  exact h

theorem ext_toNat {u v : EvmU256} (h : u.toNat = v.toNat) : u = v := by
  have hbytes := leValue_inj (u.size.trans v.size.symm) h
  cases u; cases v
  cases hbytes; rfl

theorem toNat_ofBytes {bytes : List UInt8} (h : bytes.length ≤ 32) :
    (ofBytes bytes).toNat = leValue bytes := by
  have hsplit : (bytes ++ List.replicate 32 0).take 32 =
      bytes ++ List.replicate (32 - bytes.length) 0 := by
    rw [List.take_append, List.take_of_length_le h, List.take_replicate]
    congr 2
    omega
  show leValue ((bytes ++ List.replicate 32 0).take 32) = _
  rw [hsplit, leValue_append, leValue_replicate, Nat.mul_zero, Nat.add_zero]

end EvmU256

/-! ## Reading -/

theorem nibbleOf_eq (b : UInt8) : (nibbleOf b).map UInt8.toNat = HexText.nibble (Char.ofNat b.toNat) := by
  have h : ∀ n : Fin 256, (nibbleOf (UInt8.ofNat n.val)).map UInt8.toNat =
      HexText.nibble (Char.ofNat (UInt8.ofNat n.val).toNat) := by decide +kernel
  have hb := h ⟨b.toNat, b.toNat_lt⟩
  rwa [UInt8.ofNat_toNat] at hb

/-- The bytes of a character beyond ASCII are no digits. -/
theorem ascii_of_nibbles {c : Char} (h : ∀ b ∈ String.utf8EncodeChar c, (nibbleOf b).isSome) :
    c.val.toNat ≤ 127 := by
  have hhigh : ∀ n : Fin 256, 128 ≤ n.val → (nibbleOf (UInt8.ofNat n.val)).isSome = false := by
    decide +kernel
  by_contra hbig
  have hlast : ∃ n < 256, 128 ≤ n ∧ UInt8.ofNat n ∈ String.utf8EncodeChar c := by
    have hmod := Nat.mod_lt c.val.toNat (show 64 > 0 by omega)
    refine ⟨c.val.toNat % 64 + 128, by omega, by omega, ?_⟩
    unfold String.utf8EncodeChar
    rw [if_neg hbig]
    by_cases htwo : c.val.toNat ≤ 0x7ff
    · rw [if_pos htwo]; simp
    · rw [if_neg htwo]
      by_cases hthree : c.val.toNat ≤ 0xffff
      · rw [if_pos hthree]; simp
      · rw [if_neg hthree]; simp
  obtain ⟨n, hn, hlarge, hmem⟩ := hlast
  have hnone := hhigh ⟨n, hn⟩ hlarge
  have hsome := h _ hmem
  simp only [hnone] at hsome
  cases hsome

theorem asBytes_ascii {cs : List Char} (h : ∀ c ∈ cs, c.val.toNat ≤ 127) :
    cs.flatMap String.utf8EncodeChar = cs.map fun c => UInt8.ofNat c.val.toNat := by
  induction cs with
  | nil => rfl
  | cons c cs ih =>
    rw [List.flatMap_cons, ih fun c' hc => h c' (by simp [hc]), List.map_cons]
    unfold String.utf8EncodeChar
    rw [if_pos (h c (by simp))]
    rfl

theorem nibbleOf_ascii {c : Char} (h : c.val.toNat ≤ 127) :
    (nibbleOf (UInt8.ofNat c.val.toNat)).map UInt8.toNat = HexText.nibble c := by
  rw [nibbleOf_eq, UInt8.toNat_ofNat', Nat.mod_eq_of_lt (by omega)]
  exact congrArg HexText.nibble (Char.ofNat_toNat c)

theorem ascii_of_nibble {c : Char} (h : (HexText.nibble c).isSome) : c.val.toNat ≤ 127 := by
  exact Char.utf8Size_eq_one_iff.mp (HexText.utf8Size_of_isHex h)

/-- Two digits to a byte, an odd one with a zero above it. -/
def pack : List UInt8 → List UInt8
  | [] => []
  | [l] => [l ||| ((0 : UInt8) <<< 4)]
  | l :: h :: rest => (l ||| (h <<< 4)) :: pack rest

theorem pairBytes_eq (bs : List UInt8) : pairBytes bs = (bs.mapM nibbleOf).map pack := by
  induction bs using pairBytes.induct with
  | case1 => rfl
  | case2 low => cases h : nibbleOf low <;> simp [pairBytes, pack, h]
  | case3 low high rest ih =>
    simp only [pairBytes, ih, List.mapM_cons]
    cases nibbleOf low <;> cases nibbleOf high <;> cases rest.mapM nibbleOf <;> rfl

theorem nibbles_or {l h : UInt8} (hl : l.toNat < 16) (hh : h.toNat < 16) :
    (l ||| (h <<< 4)).toNat = l.toNat + 16 * h.toNat := by
  have hall : ∀ l h : Fin 16, (UInt8.ofNat l.val ||| (UInt8.ofNat h.val <<< 4)).toNat =
      l.val + 16 * h.val := by decide +kernel
  have := hall ⟨l.toNat, hl⟩ ⟨h.toNat, hh⟩
  rwa [UInt8.ofNat_toNat, UInt8.ofNat_toNat] at this

theorem leValue_pack {ds : List UInt8} (h : ∀ d ∈ ds, d.toNat < 16) :
    leValue (pack ds) = Nat.ofDigits 16 (ds.map UInt8.toNat) := by
  induction ds using pack.induct with
  | case1 => rfl
  | case2 l =>
    have hl := h l (by simp)
    rw [pack, leValue_cons, nibbles_or hl (by decide)]
    simp
  | case3 l m rest ih =>
    have hl := h l (by simp)
    have hm := h m (by simp)
    rw [pack, leValue_cons, nibbles_or hl hm, ih fun d hd => h d (by simp [hd])]
    simp only [List.map_cons, Nat.ofDigits_cons]
    ring

theorem length_pack (ds : List UInt8) : 2 * (pack ds).length ≤ ds.length + 1 := by
  induction ds using pack.induct with
  | case1 => simp [pack]
  | case2 l => simp [pack]
  | case3 l m rest ih => simp only [pack, List.length_cons]; omega

theorem nibbleOf_lt {b d : UInt8} (h : nibbleOf b = some d) : d.toNat < 16 := by
  have hb := nibbleOf_eq b
  rw [h] at hb
  exact nibble_lt hb.symm

theorem nibbles_ascii {cs : List Char} {ds : List UInt8} (hascii : ∀ c ∈ cs, c.val.toNat ≤ 127) :
    (cs.flatMap String.utf8EncodeChar).mapM nibbleOf = some ds ↔
      cs.mapM HexText.nibble = some (ds.map UInt8.toNat) := by
  induction cs generalizing ds with
  | nil => cases ds <;> simp
  | cons c cs ih =>
    have hc := hascii c (by simp)
    have hrest := fun c' hc' => hascii c' (List.mem_cons_of_mem c hc')
    rw [asBytes_ascii hascii, List.map_cons, ← asBytes_ascii hrest, mapM_cons_some, mapM_cons_some]
    constructor
    · rintro ⟨d, rest, hd, hds, rfl⟩
      refine ⟨d.toNat, rest.map UInt8.toNat, ?_, (ih hrest).mp hds, rfl⟩
      rw [← nibbleOf_ascii hc, hd]; rfl
    · rintro ⟨n, ns, hn, hns, he⟩
      cases ds with
      | nil => cases he
      | cons d ds =>
        obtain ⟨rfl, rfl⟩ := List.cons.inj he
        refine ⟨d, ds, ?_, (ih hrest).mpr hns, rfl⟩
        rw [← nibbleOf_ascii hc] at hn
        obtain ⟨d', hd', he'⟩ := Option.map_eq_some_iff.mp hn
        rw [hd', UInt8.toNat_inj.mp he']

/-- The digits of a text, byte by byte, are those of its characters. -/
theorem nibbles_asBytes {cs : List Char} {ds : List UInt8} :
    (cs.flatMap String.utf8EncodeChar).mapM nibbleOf = some ds ↔
      (∀ c ∈ cs, c.val.toNat ≤ 127) ∧ cs.mapM HexText.nibble = some (ds.map UInt8.toNat) := by
  constructor
  · intro h
    have hascii : ∀ c ∈ cs, c.val.toNat ≤ 127 := fun c hc => ascii_of_nibbles fun b hb =>
      mapM_isSome h b (List.mem_flatMap.mpr ⟨c, hc, hb⟩)
    exact ⟨hascii, (nibbles_ascii hascii).mp h⟩
  · rintro ⟨hascii, h⟩
    exact (nibbles_ascii hascii).mpr h

theorem exists_nibbles {cs : List Char} {ns : List Nat} (hascii : ∀ c ∈ cs, c.val.toNat ≤ 127)
    (h : cs.mapM HexText.nibble = some ns) :
    ∃ ds, (cs.flatMap String.utf8EncodeChar).mapM nibbleOf = some ds := by
  have hvalues : (ns.map UInt8.ofNat).map UInt8.toNat = ns := by
    rw [List.map_map]
    refine (List.map_congr_left fun n hn => ?_).trans (List.map_id ns)
    obtain ⟨c, _, hc⟩ := mapM_mem h n hn
    exact Nat.mod_eq_of_lt (Nat.lt_trans (nibble_lt hc) (by omega))
  exact ⟨ns.map UInt8.ofNat, nibbles_asBytes.mpr ⟨hascii, by rw [hvalues]; exact h⟩⟩

/-- A `0x`-prefixed hexadecimal quantity without leading zeros. -/
def Quantity (value : String) (n : Nat) : Prop :=
  ∃ digits, value.toList = '0' :: 'x' :: digits ∧ Spells HexText.nibble 16 digits n

theorem stripPrefix_hex {value hex : String} :
    stripPrefix "0x" value = some hex ↔ value.toList = '0' :: 'x' :: hex.toList := by
  unfold stripPrefix
  have hstart : "0x".toList = ['0', 'x'] := by decide
  rw [hstart]
  constructor
  · intro h
    split at h
    · rename_i hp
      obtain ⟨rest, hrest⟩ := List.isPrefixOf_iff_prefix.mp hp
      obtain rfl := Option.some.inj h
      rw [← hrest]
      simp
    · cases h
  · intro h
    rw [h]
    simp

theorem quantityBytes_ok {field value : String} {bytes : List UInt8} :
    quantityBytes field value = .ok bytes ↔ ∃ digits, value.toList = '0' :: 'x' :: digits ∧
      bytes = digits.flatMap String.utf8EncodeChar ∧ bytes ≠ [] ∧
      ¬ (1 < bytes.length ∧ digits.head? = some '0') := by
  constructor
  · intro h
    obtain ⟨hex, hhex, h⟩ := bind_ok h
    obtain ⟨_, hcheck, h⟩ := bind_ok h
    obtain rfl := Except.ok.inj h
    obtain ⟨hne, hzero⟩ := ensure_ok hcheck
    exact ⟨hex.toList, stripPrefix_hex.mp (context_ok hhex), rfl, hne, hzero⟩
  · rintro ⟨digits, hvalue, rfl, hne, hzero⟩
    have hhex : stripPrefix "0x" value = some (String.ofList digits) :=
      stripPrefix_hex.mpr (by simpa using hvalue)
    have hbytes : asBytes (String.ofList digits) = digits.flatMap String.utf8EncodeChar := by
      rw [asBytes, String.toList_ofList]
    unfold quantityBytes
    rw [hhex, context_some, ok_bind, hbytes, String.toList_ofList, ensure_eq ⟨hne, hzero⟩, ok_bind]
    rfl

theorem pairBytes_some {bytes out : List UInt8} (h : pairBytes bytes.reverse = some out) :
    ∃ ds, bytes.mapM nibbleOf = some ds ∧ out = pack ds.reverse := by
  rw [pairBytes_eq] at h
  obtain ⟨ds, hds, rfl⟩ := Option.map_eq_some_iff.mp h
  have := mapM_reverse hds
  rw [List.reverse_reverse] at this
  exact ⟨ds.reverse, this, by rw [List.reverse_reverse]⟩

theorem toNat_pack {bytes ds : List UInt8} (hds : bytes.mapM nibbleOf = some ds)
    (hlength : bytes.length ≤ 64) :
    (EvmU256.ofBytes (pack ds.reverse)).toNat = Nat.ofDigits 16 (ds.map UInt8.toNat).reverse := by
  have hsize := length_pack ds.reverse
  rw [List.length_reverse, mapM_length hds] at hsize
  rw [EvmU256.toNat_ofBytes (by omega), leValue_pack fun d hd => ?_, List.map_reverse]
  obtain ⟨b, _, hb⟩ := mapM_mem hds d (List.mem_reverse.mp hd)
  exact nibbleOf_lt hb

/-- `parse` accepts the minimal quantities below `2 ^ 256`, each with its value. -/
theorem parse_ok {field value : String} {u : EvmU256} :
    EvmU256.parse field value = .ok u ↔ Quantity value u.toNat := by
  constructor
  · intro h
    obtain ⟨bytes, hbytes, h⟩ := bind_ok h
    obtain ⟨_, hlength, h⟩ := bind_ok h
    obtain ⟨out, hout, h⟩ := bind_ok h
    obtain rfl := Except.ok.inj h
    obtain ⟨digits, hvalue, rfl, hne, hzero⟩ := quantityBytes_ok.mp hbytes
    obtain ⟨ds, hds, rfl⟩ := pairBytes_some (context_ok hout)
    obtain ⟨hascii, hnibbles⟩ := nibbles_asBytes.mp hds
    refine ⟨digits, hvalue, fun he => hne (by rw [he]; rfl), fun hhead => ?_, _, hnibbles,
      (toNat_pack hds (ensure_ok hlength)).symm⟩
    -- a single byte is a single character here
    have hshort : ¬ 1 < digits.length := by
      rw [asBytes_ascii hascii, List.length_map] at hzero
      exact fun hlong => hzero ⟨hlong, hhead⟩
    cases digits with
    | nil => cases hhead
    | cons c rest =>
      obtain rfl := Option.some.inj hhead
      rw [List.length_cons] at hshort
      rw [List.eq_nil_of_length_eq_zero (show rest.length = 0 by omega)]
  · rintro ⟨digits, hvalue, hspells⟩
    obtain ⟨ns, hns, hnumber⟩ := hspells.value
    have hascii : ∀ c ∈ digits, c.val.toNat ≤ 127 := fun c hc => ascii_of_nibble (mapM_isSome hns c hc)
    have hlength : digits.length ≤ 64 :=
      (hspells.length_le_iff hexSystem (by omega)).mpr u.toNat_lt
    have hsize : (digits.flatMap String.utf8EncodeChar).length = digits.length := by
      rw [asBytes_ascii hascii, List.length_map]
    have hne : digits.flatMap String.utf8EncodeChar ≠ [] := fun he =>
      hspells.nonempty (List.eq_nil_of_length_eq_zero (by rw [← hsize, he]; rfl))
    have hbytes : quantityBytes field value = .ok (digits.flatMap String.utf8EncodeChar) := by
      refine quantityBytes_ok.mpr ⟨digits, hvalue, rfl, hne, ?_⟩
      rintro ⟨hlong, hhead⟩
      rw [hsize, hspells.minimal hhead] at hlong
      simp at hlong
    obtain ⟨ds, hds⟩ := exists_nibbles hascii hns
    have hout : pairBytes (digits.flatMap String.utf8EncodeChar).reverse = some (pack ds.reverse) := by
      rw [pairBytes_eq, mapM_reverse hds]; rfl
    have hvalue : (EvmU256.ofBytes (pack ds.reverse)).toNat = u.toNat := by
      have hsame := hns.symm.trans (nibbles_asBytes.mp hds).2
      rw [toNat_pack hds (hsize ▸ hlength), ← Option.some.inj hsame, hnumber]
    unfold EvmU256.parse
    rw [hbytes, ok_bind, ensure_eq (hsize ▸ hlength), ok_bind, hout, context_some, ok_bind,
      EvmU256.ext_toNat hvalue]
    rfl

/-! ## Multiplying -/

theorem toByte_eq {n : Nat} {message : String} (h : n < 256) :
    toByte n message = .ok (UInt8.ofNat n) := if_pos h

theorem fits_eq {bound n : Nat} (h : n < bound) : fits bound n = .ok n := if_pos h

/-- The limbs times a 64-bit factor, with a carry below `2 ^ 64` all along. -/
theorem mulLimbs_ok {rhs : Nat} (hrhs : rhs < 2 ^ 64) {limbs : List (List UInt8)} {carry : Nat}
    (hlimbs : ∀ l ∈ limbs, l.length = 8) (hcarry : carry < 2 ^ 64) :
    ∃ output last, mulLimbs rhs limbs carry = .ok (output, last) ∧
      output.length = 8 * limbs.length ∧
      leValue output + 256 ^ (8 * limbs.length) * last = leValue limbs.flatten * rhs + carry := by
  induction limbs generalizing carry with
  | nil => exact ⟨[], carry, rfl, rfl, by simp⟩
  | cons limb limbs ih =>
    have hlimb : leValue limb < 2 ^ 64 := by
      have h := leValue_lt limb
      rw [hlimbs limb (by simp)] at h
      exact h
    have hproduct : leValue limb * rhs ≤ (2 ^ 64 - 1) * (2 ^ 64 - 1) :=
      Nat.mul_le_mul (by omega) (by omega)
    have hnext : (leValue limb * rhs + carry) / 2 ^ 64 < 2 ^ 64 := by
      rw [Nat.div_lt_iff_lt_mul (by omega)]; omega
    obtain ⟨output, last, hrest, hlength, hvalue⟩ :=
      ih (fun l hl => hlimbs l (by simp [hl])) hnext
    refine ⟨toLeBytes 8 (leValue limb * rhs + carry) ++ output, last, ?_, ?_, ?_⟩
    · unfold mulLimbs
      rw [fits_eq (show leValue limb * rhs < 2 ^ 128 by omega), ok_bind,
        fits_eq (show leValue limb * rhs + carry < 2 ^ 128 by omega), ok_bind, hrest, ok_bind]
      rfl
    · rw [List.length_append, length_toLeBytes, hlength, List.length_cons]; omega
    · have hsplit := Nat.mod_add_div (leValue limb * rhs + carry) (2 ^ 64)
      have hpow : (256 : Nat) ^ (8 * (limb :: limbs).length) = 2 ^ 64 * 256 ^ (8 * limbs.length) := by
        rw [List.length_cons, Nat.mul_add, Nat.pow_add, Nat.mul_comm]; rfl
      have hbase : (256 : Nat) ^ 8 = 2 ^ 64 := rfl
      rw [leValue_append, leValue_toLeBytes, length_toLeBytes, List.flatten_cons, leValue_append,
        hlimbs limb (by simp), hpow, hbase]
      calc (leValue limb * rhs + carry) % 2 ^ 64 + 2 ^ 64 * leValue output +
            2 ^ 64 * 256 ^ (8 * limbs.length) * last
          = (leValue limb * rhs + carry) % 2 ^ 64 +
              2 ^ 64 * (leValue output + 256 ^ (8 * limbs.length) * last) := by ring
        _ = (leValue limb * rhs + carry) % 2 ^ 64 + 2 ^ 64 * ((leValue limb * rhs + carry) / 2 ^ 64) +
              2 ^ 64 * leValue limbs.flatten * rhs := by rw [hvalue]; ring
        _ = (leValue limb + 2 ^ 64 * leValue limbs.flatten) * rhs + carry := by rw [hsplit]; ring

theorem limbs_flatten (u : EvmU256) : ((List.range 4).map u.limb).flatten = u.bytes := by
  have h : ∀ xs : List UInt8, xs.length = 32 →
      (xs.drop 0).take 8 ++ ((xs.drop 8).take 8 ++ ((xs.drop 16).take 8 ++ (xs.drop 24).take 8)) =
        xs := by
    intro xs hx
    have hlast : (xs.drop 24).take 8 = xs.drop 24 := List.take_of_length_le (by simp [hx])
    rw [hlast, List.drop_zero]
    have hstep : ∀ k, (xs.drop k).take 8 ++ xs.drop (k + 8) = xs.drop k := fun k => by
      rw [← List.drop_drop]; exact List.take_append_drop 8 _
    rw [hstep 16, hstep 8, List.take_append_drop]
  have hu := h u.bytes u.size
  simpa [EvmU256.limb, List.range_succ] using hu

theorem limb_length (u : EvmU256) : ∀ l ∈ (List.range 4).map u.limb, l.length = 8 := by
  intro l hl
  obtain ⟨i, hi, rfl⟩ := List.mem_map.mp hl
  have hlt := List.mem_range.mp hi
  rw [EvmU256.limb, List.length_take, List.length_drop, u.size]
  omega

/-- The exact product or nothing, and no intermediate value beyond 128 bits. -/
theorem checkedMulU64_ok (u : EvmU256) (rhs : UInt64) :
    ∃ result, u.checkedMulU64 rhs = .ok result ∧ result.map EvmU256.toNat =
      if u.toNat * rhs.toNat < 2 ^ 256 then some (u.toNat * rhs.toNat) else none := by
  obtain ⟨output, last, hmul, hlength, hvalue⟩ :=
    mulLimbs_ok rhs.toNat_lt (limb_length u) (show 0 < 2 ^ 64 by omega)
  rw [List.length_map, List.length_range] at hlength hvalue
  rw [limbs_flatten, Nat.add_zero] at hvalue
  have hpow : (256 : Nat) ^ (8 * 4) = 2 ^ 256 := rfl
  have hproduct : leValue output + 2 ^ 256 * last = u.toNat * rhs.toNat := hpow ▸ hvalue
  have hbound : leValue output < 2 ^ 256 := by
    have h := leValue_lt output
    rwa [hlength, hpow] at h
  refine ⟨if last = 0 then some (EvmU256.ofBytes output) else none, ?_, ?_⟩
  · unfold EvmU256.checkedMulU64
    rw [hmul]; rfl
  · by_cases hlast : last = 0
    · subst hlast
      rw [Nat.mul_zero, Nat.add_zero] at hproduct
      rw [if_pos rfl, if_pos (hproduct ▸ hbound), Option.map_some,
        EvmU256.toNat_ofBytes (by omega), hproduct]
    · have hlarge : 2 ^ 256 ≤ u.toNat * rhs.toNat := by
        rw [← hproduct]
        exact Nat.le_trans (Nat.le_mul_of_pos_right _ (Nat.pos_of_ne_zero hlast)) (Nat.le_add_left _ _)
      rw [if_neg hlast, if_neg (Nat.not_lt.mpr hlarge)]; rfl

/-! ## Printing -/

/-- What stands in the bytes after a division: quotient and remainder of the number. -/
theorem divTen_ok {bytes : List UInt8} {remainder : Nat} (h : remainder < 10) :
    ∃ quotients last, divTen bytes remainder = .ok (quotients, last) ∧ last < 10 ∧
      quotients.length = bytes.length ∧
      remainder * 256 ^ bytes.length + leValue bytes.reverse =
        10 * leValue quotients.reverse + last := by
  induction bytes generalizing remainder with
  | nil => exact ⟨[], remainder, rfl, h, rfl, by simp⟩
  | cons byte bytes ih =>
    have hbyte := byte.toNat_lt
    obtain ⟨quotients, last, hrest, hlast, hlength, hvalue⟩ :=
      ih (Nat.mod_lt (remainder * 256 + byte.toNat) (show 0 < 10 by omega))
    have hquotient : (remainder * 256 + byte.toNat) / 10 < 256 := by omega
    refine ⟨UInt8.ofNat ((remainder * 256 + byte.toNat) / 10) :: quotients, last, ?_, hlast,
      by rw [List.length_cons, hlength, List.length_cons], ?_⟩
    · unfold divTen
      rw [fits_eq (show remainder * 256 < 2 ^ 16 by omega), ok_bind,
        fits_eq (show remainder * 256 + byte.toNat < 2 ^ 16 by omega), ok_bind,
        toByte_eq hquotient, ok_bind, hrest]
      rfl
    · have hsplit := Nat.div_add_mod (remainder * 256 + byte.toNat) 10
      have hlead : ∀ (b : UInt8) (bs : List UInt8),
          leValue (b :: bs).reverse = b.toNat * 256 ^ bs.length + leValue bs.reverse := by
        intro b bs
        rw [List.reverse_cons, leValue_append, List.length_reverse, leValue_cons, leValue_nil]
        ring
      rw [hlead, hlead, hlength, UInt8.toNat_ofNat', Nat.mod_eq_of_lt hquotient, List.length_cons]
      calc remainder * 256 ^ (bytes.length + 1) +
            (byte.toNat * 256 ^ bytes.length + leValue bytes.reverse)
          = (remainder * 256 + byte.toNat) * 256 ^ bytes.length + leValue bytes.reverse := by ring
        _ = 10 * ((remainder * 256 + byte.toNat) / 10) * 256 ^ bytes.length +
              ((remainder * 256 + byte.toNat) % 10 * 256 ^ bytes.length + leValue bytes.reverse) := by
            rw [← Nat.add_assoc, ← Nat.add_mul, hsplit]
        _ = 10 * ((remainder * 256 + byte.toNat) / 10) * 256 ^ bytes.length +
              (10 * leValue quotients.reverse + last) := by rw [hvalue]
        _ = _ := by ring

theorem any_ne_zero {bytes : List UInt8} : bytes.any (· ≠ 0) = true ↔ leValue bytes ≠ 0 := by
  rw [ne_eq, leValue_eq_zero, List.any_eq_true]
  simp

/-- The character of a decimal digit. -/
def digitCharacter (d : Nat) : Char := Char.ofNat (48 + d)

theorem decimalDigit_character {d : Nat} (h : d < 10) : decimalDigit (digitCharacter d) = some d := by
  have hall : ∀ d : Fin 10, decimalDigit (digitCharacter d.val) = some d.val := by decide
  exact hall ⟨d, h⟩

/-- Enough rounds print the digits of the number, whatever its bytes. -/
theorem decimalDigits_ok {rounds : Nat} {quotient : List UInt8}
    (h : leValue quotient < 10 ^ rounds) :
    decimalDigits rounds quotient =
      .ok ((Nat.digits 10 (leValue quotient)).map digitCharacter) := by
  induction rounds generalizing quotient with
  | zero =>
    have hzero : leValue quotient = 0 := by simpa using h
    have hnone : quotient.any (· ≠ 0) = false := by
      rw [Bool.eq_false_iff, ne_eq, any_ne_zero]; exact fun hne => hne hzero
    rw [decimalDigits, hnone, hzero]; rfl
  | succ rounds ih =>
    unfold decimalDigits
    by_cases hzero : leValue quotient = 0
    · have hnone : quotient.any (· ≠ 0) = false := by
        rw [Bool.eq_false_iff, ne_eq, any_ne_zero]; exact fun hne => hne hzero
      rw [hnone, hzero]; rfl
    · rw [if_pos (any_ne_zero.mpr hzero)]
      obtain ⟨bytes, remainder, hdiv, hlast, _, hvalue⟩ :=
        @divTen_ok quotient.reverse 0 (by omega)
      rw [Nat.zero_mul, Nat.zero_add, List.reverse_reverse] at hvalue
      have hquotient : leValue bytes.reverse = leValue quotient / 10 := by omega
      have hremainder : remainder = leValue quotient % 10 := by omega
      have hsmall : leValue bytes.reverse < 10 ^ rounds := by
        rw [hquotient, Nat.div_lt_iff_lt_mul (by omega), ← Nat.pow_succ]; exact h
      have hrest := ih hsmall
      have hbyte : (UInt8.ofNat remainder).toNat = remainder := by
        rw [UInt8.toNat_ofNat', Nat.mod_eq_of_lt (by omega)]
      rw [hdiv, ok_bind]
      show (toByte remainder _ >>= fun _ => _) = _
      rw [toByte_eq (show remainder < 256 by omega), ok_bind, hbyte,
        fits_eq (show 48 + remainder < 2 ^ 8 by omega), ok_bind, hrest, ok_bind,
        Nat.digits_def' (by omega) (Nat.pos_of_ne_zero hzero), List.map_cons, hquotient, hremainder]
      rfl

theorem spells_digits {n : Nat} (h : 0 < n) :
    Spells decimalDigit 10 ((Nat.digits 10 n).map digitCharacter).reverse n := by
  have hvalue : ((Nat.digits 10 n).map digitCharacter).mapM decimalDigit = some (Nat.digits 10 n) := by
    have hlt : ∀ d ∈ Nat.digits 10 n, d < 10 := fun d hd => Nat.digits_lt_base (by omega) hd
    generalize Nat.digits 10 n = ds at hlt
    induction ds with
    | nil => rfl
    | cons d ds ih =>
      rw [List.map_cons, mapM_cons_some]
      exact ⟨d, ds, decimalDigit_character (hlt d (by simp)), ih fun e he => hlt e (by simp [he]), rfl⟩
  have hne : Nat.digits 10 n ≠ [] := Nat.digits_ne_nil_iff_ne_zero.mpr (Nat.pos_iff_ne_zero.mp h)
  refine ⟨by simpa using hne, fun hhead => ?_, _, mapM_reverse hvalue, ?_⟩
  · -- the leading digit of a positive number is not zero
    rw [List.head?_reverse, List.getLast?_map, List.getLast?_eq_some_getLast hne, Option.map_some] at hhead
    have hlast := Nat.getLast_digit_ne_zero 10 (Nat.pos_iff_ne_zero.mp h)
    have hlt : (Nat.digits 10 n).getLast hne < 10 :=
      Nat.digits_lt_base (by omega) (List.getLast_mem hne)
    have hdigit := decimalDigit_character hlt
    rw [Option.some.inj hhead] at hdigit
    exact absurd (Option.some.inj hdigit).symm hlast
  · rw [List.reverse_reverse, Nat.ofDigits_digits]

/-- Printing never stops the process and yields the minimal decimal spelling. -/
theorem decimalString_ok (u : EvmU256) :
    ∃ text, u.decimalString = .ok text ∧ Spells decimalDigit 10 text.toList u.toNat := by
  by_cases hzero : u.toNat = 0
  · have hz : u.isZero = true := by
      unfold EvmU256.isZero
      rw [List.all_eq_true]
      exact fun b hb => by simpa using leValue_eq_zero.mp hzero b hb
    refine ⟨"0", by rw [EvmU256.decimalString, if_pos hz], ?_⟩
    rw [hzero]
    exact ⟨by decide, by decide, [0], by decide, rfl⟩
  · have hz : ¬ u.isZero = true := by
      intro hall
      refine hzero (leValue_eq_zero.mpr fun b hb => ?_)
      simpa using List.all_eq_true.mp hall b hb
    refine ⟨String.ofList ((Nat.digits 10 u.toNat).map digitCharacter).reverse, ?_, ?_⟩
    · rw [EvmU256.decimalString, if_neg hz, decimalDigits_ok (Nat.lt_trans u.toNat_lt (by decide))]
      rfl
    · rw [String.toList_ofList]
      exact spells_digits (Nat.pos_of_ne_zero hzero)

/-! ## Words, and the values the other modules use -/

theorem ofDigits_reverse (base : Nat) (ds : List Nat) :
    Nat.ofDigits base ds.reverse = ds.foldl (fun n d => base * n + d) 0 := by
  rw [Nat.ofDigits_eq_foldr, List.foldr_reverse]
  simp only [Nat.cast_id, Nat.add_comm]

theorem fromBeWord_some {bytes : List UInt8} {u : EvmU256} : EvmU256.fromBeWord bytes = some u ↔
    bytes.length = 32 ∧ u.toNat = HexText.bytesValue (bytes.map UInt8.toNat) := by
  have hvalue : leValue bytes.reverse = HexText.bytesValue (bytes.map UInt8.toNat) := by
    rw [leValue, List.map_reverse, ofDigits_reverse]; rfl
  unfold EvmU256.fromBeWord
  by_cases h : bytes.length = 32
  · rw [dif_pos h, Option.some.injEq, ← hvalue]
    refine ⟨fun he => ⟨h, he ▸ rfl⟩, fun hu => EvmU256.ext_toNat hu.2.symm⟩
  · rw [dif_neg h]
    exact iff_of_false (by simp) fun hu => h hu.1

theorem asU64_ok {u : EvmU256} {field : String} {n : Nat} :
    u.asU64 field = .ok n ↔ u.toNat = n ∧ n < 2 ^ 64 := by
  have hsplit : u.toNat = leValue (u.bytes.take 8) + 2 ^ 64 * leValue (u.bytes.drop 8) := by
    have h := leValue_append (u.bytes.take 8) (u.bytes.drop 8)
    rw [List.take_append_drop, List.length_take, u.size] at h
    exact h
  have hlow : leValue (u.bytes.take 8) < 2 ^ 64 := by
    have h := leValue_lt (u.bytes.take 8)
    rw [List.length_take, u.size] at h
    exact h
  constructor
  · intro h
    obtain ⟨_, hzero, h⟩ := bind_ok h
    obtain rfl := Except.ok.inj h
    have hhigh : leValue (u.bytes.drop 8) = 0 := by
      by_contra hne
      exact ensure_ok hzero (any_ne_zero.mpr hne)
    rw [hhigh, Nat.mul_zero, Nat.add_zero] at hsplit
    exact ⟨hsplit, hlow⟩
  · rintro ⟨rfl, hbound⟩
    have hhigh : leValue (u.bytes.drop 8) = 0 := by omega
    unfold EvmU256.asU64
    have hnone : ¬ ((u.bytes.drop 8).any (· ≠ 0)) = true := fun hany =>
      any_ne_zero.mp hany hhigh
    rw [ensure_eq hnone, ok_bind, hsplit, hhigh, Nat.mul_zero,
      Nat.add_zero]
    rfl

theorem exists_toNat {n : Nat} (h : n < 2 ^ 256) : ∃ u : EvmU256, u.toNat = n :=
  ⟨⟨toLeBytes 32 n, length_toLeBytes 32 n⟩, (leValue_toLeBytes 32 n).trans (Nat.mod_eq_of_lt h)⟩

theorem foldlM_nibbles (cs : List Char) (n : Nat) :
    cs.foldlM (fun n c => (hexNibble c).map fun d => 16 * n + d) n =
      (cs.mapM HexText.nibble).map (List.foldl (fun n d => 16 * n + d) n) := by
  induction cs generalizing n with
  | nil => rfl
  | cons c cs ih =>
    have hsame : hexNibble c = HexText.nibble c := rfl
    rw [List.foldlM_cons, List.mapM_cons, hsame]
    cases HexText.nibble c with
    | none => rfl
    | some d =>
      simp only [Option.map_some, Option.bind_eq_bind, Option.bind_some, ih]
      cases cs.mapM HexText.nibble <;> rfl

/-- The natural number that the other modules read is the value of the word. -/
theorem parseU256_ok {field value : String} {n : Nat} :
    parseU256 field value = .ok n ↔ Quantity value n ∧ n < 2 ^ 256 := by
  constructor
  · intro h
    obtain ⟨digits, hdigits, h⟩ := bind_ok h
    obtain ⟨_, hlength, h⟩ := bind_ok h
    obtain ⟨hex, hhex, hdigits⟩ := bind_ok hdigits
    obtain ⟨_, hcheck, hdigits⟩ := bind_ok hdigits
    obtain rfl := Except.ok.inj hdigits
    obtain ⟨hne, hzero⟩ := ensure_ok hcheck
    have hvalue := context_ok h
    rw [foldlM_nibbles] at hvalue
    obtain ⟨ds, hds, rfl⟩ := Option.map_eq_some_iff.mp hvalue
    have hspells : Spells HexText.nibble 16 hex.toList (ds.foldl (fun n d => 16 * n + d) 0) := by
      refine ⟨hne, fun hhead => ?_, ds, hds, ofDigits_reverse 16 ds⟩
      cases hcs : hex.toList with
      | nil => rw [hcs] at hhead; cases hhead
      | cons c rest =>
        rw [hcs] at hhead hzero
        obtain rfl := Option.some.inj hhead
        rw [List.eq_nil_of_length_eq_zero (show rest.length = 0 by
          by_contra hlong
          exact hzero ⟨by rw [List.length_cons]; omega, rfl⟩)]
    refine ⟨⟨hex.toList, stripPrefix_hex.mp (context_ok hhex), hspells⟩, ?_⟩
    exact (hspells.length_le_iff hexSystem (by omega)).mp (ensure_ok hlength)
  · rintro ⟨⟨digits, hvalue, hspells⟩, hbound⟩
    obtain ⟨ds, hds, rfl⟩ := hspells.value
    have hhex : stripPrefix "0x" value = some (String.ofList digits) :=
      stripPrefix_hex.mpr (by simpa using hvalue)
    have hshort : ¬ (1 < digits.length ∧ digits.head? = some '0') := by
      rintro ⟨hlong, hhead⟩
      rw [hspells.minimal hhead] at hlong
      simp at hlong
    have hquantity : quantityHex field value = .ok digits := by
      unfold quantityHex
      rw [hhex, context_some, ok_bind, String.toList_ofList, ensure_eq ⟨hspells.nonempty, hshort⟩]
      rfl
    unfold parseU256
    rw [hquantity, ok_bind, ensure_eq ((hspells.length_le_iff hexSystem (by omega)).mpr hbound),
      ok_bind, foldlM_nibbles, hds, ofDigits_reverse]
    rfl

theorem parseU64_ok {field value : String} {n : Nat} (h : parseU64 field value = .ok n) :
    n < 2 ^ 64 ∧ ∃ u, EvmU256.parse field value = .ok u ∧ u.asU64 field = .ok n := by
  obtain ⟨m, hm, h⟩ := bind_ok h
  obtain ⟨_, hbound, h⟩ := bind_ok h
  obtain rfl := Except.ok.inj h
  obtain ⟨hquantity, hlt⟩ := parseU256_ok.mp hm
  obtain ⟨u, rfl⟩ := exists_toNat hlt
  exact ⟨ensure_ok hbound, u, parse_ok.mpr hquantity, asU64_ok.mpr ⟨rfl, ensure_ok hbound⟩⟩

/-! ## The fee of a transaction -/

/-- The fee as the words compute it. -/
structure FeeOf (e : Entry) (price fee : EvmU256) (gas : UInt64) : Prop where
  priceText : ∃ text, e.receipt.effectiveGasPrice.or e.rpc.gasPrice = some text ∧
    EvmU256.parse "receipt.effectiveGasPrice" text = .ok price
  gasText : ∃ used, EvmU256.parse "receipt.gasUsed" e.receipt.gasUsed = .ok used ∧
    used.asU64 "receipt.gasUsed" = .ok gas.toNat
  product : price.checkedMulU64 gas = .ok (some fee)
  effectiveGasPrice : e.row.effectiveGasPrice = price.toNat
  gasUsed : e.row.gasUsed = gas.toNat
  feePaid : e.row.feePaid = fee.toNat
  exact : e.row.feePaid = e.row.gasUsed * e.row.effectiveGasPrice

theorem fee_exact {b : BlockReference} {e : Entry} (h : e.Holds b) :
    ∃ price fee gas, FeeOf e price fee gas := by
  obtain ⟨text, htext, hprice⟩ := h.price
  obtain ⟨hquantity, hlt⟩ := parseU256_ok.mp hprice
  obtain ⟨price, hp⟩ := exists_toNat hlt
  obtain ⟨hgas, used, hused, hvalue⟩ := parseU64_ok h.gasUsed
  have hword : (UInt64.ofNat e.row.gasUsed).toNat = e.row.gasUsed := Nat.mod_eq_of_lt hgas
  obtain ⟨result, hmul, hresult⟩ := checkedMulU64_ok price (UInt64.ofNat e.row.gasUsed)
  rw [hword, hp, if_pos h.feeBound] at hresult
  obtain ⟨fee, rfl, hfee⟩ := Option.map_eq_some_iff.mp hresult
  exact ⟨price, fee, UInt64.ofNat e.row.gasUsed,
    ⟨⟨text, htext, parse_ok.mpr (hp ▸ hquantity)⟩, ⟨used, hused, by rw [hword]; exact hvalue⟩, hmul, hp.symm,
      hword.symm, hfee ▸ h.fee, h.fee.trans (Nat.mul_comm _ _)⟩⟩

/-- 256-bit quantities are read, multiplied and printed exactly, and the fee of every normalized
transaction is its gas times the effective gas price. -/
theorem evm_u256_exact :
    (∀ field value n, (∃ u : EvmU256, EvmU256.parse field value = .ok u ∧ u.toNat = n) ↔
      Quantity value n ∧ n < 2 ^ 256) ∧
    (∀ (u : EvmU256) (rhs : UInt64), ∃ result, u.checkedMulU64 rhs = .ok result ∧
      result.map EvmU256.toNat =
        if u.toNat * rhs.toNat < 2 ^ 256 then some (u.toNat * rhs.toNat) else none) ∧
    (∀ bytes u, EvmU256.fromBeWord bytes = some u ↔
      bytes.length = 32 ∧ u.toNat = HexText.bytesValue (bytes.map UInt8.toNat)) ∧
    (∀ u : EvmU256, ∃ text, u.decimalString = .ok text ∧
      ∀ other : String, Spells decimalDigit 10 other.toList u.toNat ↔ other = text) ∧
    ∀ rpc receipts block, normalizeBlock rpc receipts = .ok block →
      ∃ entries, Matched rpc receipts block entries ∧
        ∀ e ∈ entries, ∃ price fee gas, FeeOf e price fee gas := by
  refine ⟨fun field value n => ⟨?_, ?_⟩, checkedMulU64_ok, fun _ _ => fromBeWord_some,
    fun u => ?_, fun rpc receipts block h => ?_⟩
  · rintro ⟨u, hu, rfl⟩
    exact ⟨parse_ok.mp hu, u.toNat_lt⟩
  · rintro ⟨hquantity, hlt⟩
    obtain ⟨u, rfl⟩ := exists_toNat hlt
    exact ⟨u, parse_ok.mpr hquantity, rfl⟩
  · obtain ⟨text, htext, hspells⟩ := decimalString_ok u
    refine ⟨text, htext, fun other => ⟨fun h => ?_, fun h => h ▸ hspells⟩⟩
    exact String.toList_inj.mp (h.unique decimalSystem (fun _ _ _ => decimalDigit_inj) hspells)
  · obtain ⟨entries, hmatched, hall⟩ := normalizeBlock_matched h
    exact ⟨entries, hmatched, fun e he => fee_exact (hall e he)⟩

end AmlReal.Bsc.Quantities
