import Mathlib.Data.List.Basic

/-! # Hexadecimal text

Digits read one by one and in pairs, and the number that a text spells. Reading
the bytes of a text in the order they are written gives that number again. -/

namespace AmlReal.Foundations.HexText

def nibble (c : Char) : Option Nat :=
  if c.isDigit then some (c.toNat - '0'.toNat)
  else if 'a' ≤ c ∧ c ≤ 'f' then some (c.toNat - 'a'.toNat + 10)
  else if 'A' ≤ c ∧ c ≤ 'F' then some (c.toNat - 'A'.toNat + 10)
  else none

def isHex (c : Char) : Bool := (nibble c).isSome

/-- `hex::decode` -/
def decode : List Char → Option (List Nat)
  | [] => some []
  | high :: low :: rest => do
    let h ← nibble high
    let l ← nibble low
    let bytes ← decode rest
    pure ((16 * h + l) :: bytes)
  | [_] => none

/-- The number of bytes, most significant first. -/
def bytesValue (bytes : List Nat) : Nat := bytes.foldl (fun n byte => 256 * n + byte) 0

/-- The number that a text of digits spells. -/
def value (digits : List Char) : Nat := digits.foldl (fun n c => 16 * n + (nibble c).getD 0) 0

theorem decode_cons_eq_some {high low : Char} {rest : List Char} {bytes : List Nat} :
    decode (high :: low :: rest) = some bytes ↔ ∃ h l tail, nibble high = some h ∧
      nibble low = some l ∧ decode rest = some tail ∧ bytes = (16 * h + l) :: tail := by
  simp only [decode, Option.bind_eq_bind, Option.bind_eq_some_iff, Option.pure_def,
    Option.some.injEq]
  constructor
  · rintro ⟨h, hhigh, l, hlow, tail, htail, rfl⟩
    exact ⟨h, l, tail, hhigh, hlow, htail, rfl⟩
  · rintro ⟨h, l, tail, hhigh, hlow, htail, rfl⟩
    exact ⟨h, hhigh, l, hlow, tail, htail, rfl⟩

theorem foldl_decode {cs : List Char} {bytes : List Nat} (h : decode cs = some bytes) (n : Nat) :
    bytes.foldl (fun n byte => 256 * n + byte) n =
      cs.foldl (fun n c => 16 * n + (nibble c).getD 0) n := by
  induction cs using decode.induct generalizing bytes n with
  | case1 =>
    obtain rfl := Option.some.inj h
    rfl
  | case2 high low rest ih =>
    obtain ⟨hi, lo, tail, hhigh, hlow, htail, rfl⟩ := decode_cons_eq_some.mp h
    simp only [List.foldl_cons, hhigh, hlow, Option.getD_some]
    rw [ih htail]
    congr 1
    omega
  | case3 c => cases h

theorem isHex_of_decode {cs : List Char} {bytes : List Nat} (h : decode cs = some bytes) :
    cs.all isHex = true := by
  induction cs using decode.induct generalizing bytes with
  | case1 => rfl
  | case2 high low rest ih =>
    obtain ⟨hi, lo, tail, hhigh, hlow, htail, _⟩ := decode_cons_eq_some.mp h
    simp [isHex, hhigh, hlow, ih htail]
  | case3 c => cases h

/-- The bytes of a text spell its number. -/
theorem bytesValue_decode {cs : List Char} {bytes : List Nat} (h : decode cs = some bytes) :
    bytesValue bytes = value cs := foldl_decode h 0

theorem exists_decode {cs : List Char} (hall : cs.all isHex = true) (heven : cs.length % 2 = 0) :
    ∃ bytes, decode cs = some bytes := by
  induction cs using decode.induct with
  | case1 => exact ⟨[], rfl⟩
  | case2 high low rest ih =>
    simp only [List.all_cons, Bool.and_eq_true] at hall
    obtain ⟨hhigh, hlow, hrest⟩ := hall
    obtain ⟨h, hhigh⟩ := Option.isSome_iff_exists.mp hhigh
    obtain ⟨l, hlow⟩ := Option.isSome_iff_exists.mp hlow
    obtain ⟨tail, htail⟩ := ih hrest (by simp only [List.length_cons] at heven; omega)
    exact ⟨_, decode_cons_eq_some.mpr ⟨h, l, tail, hhigh, hlow, htail, rfl⟩⟩
  | case3 c => simp at heven

theorem toNat_le_of_isHex {c : Char} (h : isHex c = true) : c.toNat ≤ 'f'.toNat := by
  obtain ⟨d, hd⟩ := Option.isSome_iff_exists.mp h
  unfold nibble at hd
  split at hd
  · rename_i hdigit
    exact Nat.le_trans (Char.isDigit_iff_toNat.mp hdigit).2 (by decide)
  · split at hd
    · rename_i hlower
      exact hlower.2
    · split at hd
      · rename_i hupper
        exact Nat.le_trans (show c.toNat ≤ 'F'.toNat from hupper.2) (by decide)
      · cases hd

theorem utf8Size_of_isHex {c : Char} (h : isHex c = true) : c.utf8Size = 1 := by
  have hascii : c.val ≤ 0x7f := Nat.le_trans (toNat_le_of_isHex h) (by decide)
  simp [Char.utf8Size, hascii]

/-! ## Leading zeros -/

theorem foldl_value_ge (cs : List Char) (n : Nat) :
    n ≤ cs.foldl (fun n c => 16 * n + (nibble c).getD 0) n := by
  induction cs generalizing n with
  | nil => exact Nat.le_refl n
  | cons c rest ih =>
    have hstep : n ≤ 16 * n + (nibble c).getD 0 := by omega
    exact Nat.le_trans hstep (ih _)

theorem value_zero_cons (rest : List Char) : value ('0' :: rest) = value rest := rfl

/-- A text without leading zeros spells the number of the text. -/
theorem value_dropWhile (cs : List Char) : value (cs.dropWhile (· = '0')) = value cs := by
  induction cs with
  | nil => rfl
  | cons c rest ih =>
    by_cases hc : c = '0'
    · subst hc
      rw [List.dropWhile_cons_of_pos (by decide), ih, value_zero_cons]
    · rw [List.dropWhile_cons_of_neg (by simpa using hc)]

theorem nibble_eq_zero {c : Char} (h : nibble c = some 0) : c = '0' := by
  unfold nibble at h
  split at h
  · rename_i hdigit
    have hle := Option.some.inj h
    have hdigit := Char.isDigit_iff_toNat.mp hdigit
    exact Char.toNat_inj.mp (by omega)
  · split at h
    · have := Option.some.inj h; omega
    · split at h
      · have := Option.some.inj h; omega
      · cases h

theorem value_pos {c : Char} (rest : List Char) (hc : isHex c = true) (hne : c ≠ '0') :
    0 < value (c :: rest) := by
  obtain ⟨d, hd⟩ := Option.isSome_iff_exists.mp hc
  have hpos : 0 < d := by
    rcases Nat.eq_zero_or_pos d with rfl | hpos
    · exact absurd (nibble_eq_zero hd) hne
    · exact hpos
  have hge := foldl_value_ge rest d
  have hvalue : value (c :: rest) = rest.foldl (fun n c => 16 * n + (nibble c).getD 0) d := by
    simp [value, hd]
  omega

end AmlReal.Foundations.HexText
