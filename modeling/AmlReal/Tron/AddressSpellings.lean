import Mathlib.Tactic.Ring
import AmlReal.Foundations.Base58
import AmlReal.Foundations.Checks

/-! # TRON addresses

`normalize_tron_address` of the TRON application (`utils/tron_address.rs`) and
`tron_wallet` of the shared warehouse (`values.rs`). Texts are lists of
characters and bytes are numbers; SHA-256 is a parameter. -/

namespace AmlReal.Tron.AddressSpellings
open AmlReal.Foundations AmlReal.Foundations.Checks AmlReal.Foundations.Base58

/-- SHA-256, of which only the form of a digest matters. -/
structure Sha256 where
  digest : List Nat → List Nat
  length : ∀ bytes, (digest bytes).length = 32
  lt : ∀ bytes, ∀ b ∈ digest bytes, b < 256

def Sha256.checksum (sha : Sha256) (payload : List Nat) : List Nat :=
  (sha.digest (sha.digest payload)).take 4

/-! ## The application -/

/-- `str::trim_start_matches` of two characters. -/
def trimStartMatches (c d : Char) : List Char → List Char
  | x :: y :: rest => if x = c ∧ y = d then trimStartMatches c d rest else x :: y :: rest
  | cs => cs

def normalizeHexPayload (cleaned : List Char) : Option (List Char) :=
  if ¬ cleaned.all HexText.isHex then none
  else if cleaned.length = 42 ∧ cleaned.take 2 = ['4', '1'] then some cleaned
  else if cleaned.length = 40 then some ('4' :: '1' :: cleaned)
  else if 42 < cleaned.length then
    let last42 := cleaned.drop (cleaned.length - 42)
    if last42.take 2 = ['4', '1'] then some last42
    else some ('4' :: '1' :: cleaned.drop (cleaned.length - 40))
  else none

def hexDigits (letters : List Char) (byte : Nat) : List Char :=
  [letters.getD (byte / 16) '0', letters.getD (byte % 16) '0']

def LOWER : List Char := "0123456789abcdef".toList

def UPPER : List Char := "0123456789ABCDEF".toList

section
variable (sha : Sha256)

def hexToBase58 (hexAddr : List Char) : Option (List Char) := do
  let cleaned := trimStartMatches '0' 'X' (trimStartMatches '0' 'x' hexAddr)
  let normalized ← normalizeHexPayload cleaned
  let bytes ← HexText.decode normalized
  if bytes.length ≠ 21 ∨ bytes.head? ≠ some 0x41 then none
  else some (encode (bytes ++ sha.checksum bytes))

def base58ToHex (addr : List Char) : Option (List Char) := do
  let decoded ← decode addr
  if decoded.length ≠ 25 then none
  else
    let raw := decoded.take 21
    let checksum := decoded.drop 21
    if raw.head? ≠ some 0x41 then none
    else if sha.checksum raw ≠ checksum then none
    else some (raw.flatMap (hexDigits UPPER))

def normalizeTronAddress (addr : List Char) : Option (List Char) :=
  if addr = [] then none
  else if addr.head? = some 'T' then (base58ToHex sha addr).map fun _ => addr
  else hexToBase58 sha addr

end

/-! ## The shared warehouse -/

/-- `hex(value, length)`; every character of such a value is one byte. -/
def hex (value : List Char) (length : Nat) : Bool := value.length = length ∧ value.all HexText.isHex

/-- `value.len()` -/
def byteLength (value : List Char) : Nat := (value.map Char.utf8Size).sum

/-- The loop over the bytes for one character, from the last byte on: they are multiplied by 58 and
the carry is added. -/
def mulAdd : List Nat → Nat → List Nat × Nat
  | [], carry => ([], carry)
  | byte :: rest, carry =>
    let (rest, carry) := mulAdd rest carry
    let carry := carry + byte * 58
    (carry % 256 :: rest, carry / 256)

def pushSymbol (bytes : List Nat) (character : Char) : Except String (List Nat) := do
  let carry ← context (digit character) "invalid base58 character"
  let (bytes, carry) := mulAdd bytes carry
  ensure (carry = 0) "TRON address overflow"
  pure bytes

/-- The loop over the bytes for one digit, from the first byte on: they are divided by 58. A
remainder is below 58, so each quotient is a byte again. -/
def divide : List Nat → Nat → List Nat × Nat
  | [], remainder => ([], remainder)
  | byte :: rest, remainder =>
    let value := remainder * 256 + byte
    let (rest, remainder) := divide rest (value % 58)
    (value / 58 :: rest, remainder)

/-- The number of the bytes, most significant first. -/
def number (bytes : List Nat) : Nat := Nat.ofDigits 256 bytes.reverse

theorem number_cons (b : Nat) (bytes : List Nat) :
    number (b :: bytes) = number bytes + 256 ^ bytes.length * b := by
  rw [number, List.reverse_cons, Nat.ofDigits_append, Nat.ofDigits_singleton, List.length_reverse]
  rfl

/-- Division leaves the quotient in the bytes. -/
theorem divide_number (bytes : List Nat) (r : Nat) :
    58 * number (divide bytes r).1 + (divide bytes r).2 = r * 256 ^ bytes.length + number bytes ∧
      (r < 58 → (divide bytes r).2 < 58) ∧ (divide bytes r).1.length = bytes.length := by
  induction bytes generalizing r with
  | nil => simp [divide, number]
  | cons b rest ih =>
    obtain ⟨hvalue, hlt, hlength⟩ := ih ((r * 256 + b) % 58)
    refine ⟨?_, fun _ => hlt (Nat.mod_lt _ (by decide)), by simp [divide, hlength]⟩
    simp only [divide, number_cons, hlength, List.length_cons, Nat.pow_succ]
    have hdiv := Nat.div_add_mod (r * 256 + b) 58
    generalize (r * 256 + b) / 58 = q at *
    generalize (r * 256 + b) % 58 = m at *
    generalize 256 ^ rest.length = p at *
    calc 58 * (number (divide rest m).1 + p * q) + (divide rest m).2
        = (58 * number (divide rest m).1 + (divide rest m).2) + p * (58 * q) := by ring
      _ = m * p + number rest + p * (58 * q) := by rw [hvalue]
      _ = p * (58 * q + m) + number rest := by ring
      _ = p * (r * 256 + b) + number rest := by rw [hdiv]
      _ = r * (p * 256) + (number rest + p * b) := by ring

theorem number_pos {bytes : List Nat} (h : bytes.any (· ≠ 0) = true) : 0 < number bytes := by
  induction bytes with
  | nil => cases h
  | cons b rest ih =>
    rw [number_cons]
    by_cases hb : b = 0
    · have hrest : rest.any (· ≠ 0) = true := by simpa [hb] using h
      exact Nat.add_pos_left (ih hrest) _
    · exact Nat.add_pos_right _ (Nat.mul_pos (Nat.pow_pos (by decide)) (Nat.pos_of_ne_zero hb))

theorem divide_lt {bytes : List Nat} (h : bytes.any (· ≠ 0) = true) :
    number (divide bytes 0).1 < number bytes := by
  have hvalue := (divide_number bytes 0).1
  have hpos := number_pos h
  omega

/-- The loop that spells the bytes, least significant digit first. -/
def spell (bytes : List Nat) : List Char :=
  if bytes.any (· ≠ 0) then symbol (divide bytes 0).2 :: spell (divide bytes 0).1 else []
termination_by number bytes
decreasing_by exact divide_lt (by assumption)

section
variable (sha : Sha256)

def tronContract (value : List Char) : Except String (List Char) :=
  if value.take 2 = ['4', '1'] ∧ hex value 42 then .ok (value.map Char.toLower)
  else do
    ensure (byteLength value = 34 ∧ value.head? = some 'T') "invalid TRON contract identity"
    let bytes ← value.foldlM pushSymbol (List.replicate 25 0)
    ensure (bytes.head? = some 0x41 ∧ bytes.drop 21 = sha.checksum (bytes.take 21))
      "TRON contract checksum/network mismatch"
    pure ((bytes.take 21).flatMap (hexDigits LOWER))

def tronWallet (value : List Char) : Except String (List Char) := do
  let hex ← tronContract sha value
  let bytes ← context (HexText.decode hex) "invalid digit found in string"
  pure (spell (bytes ++ sha.checksum bytes)).reverse

end

end AmlReal.Tron.AddressSpellings
