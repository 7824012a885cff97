import Mathlib.Data.Nat.Digits.Lemmas
import AmlReal.Foundations.Numerals

/-! # Base58

Digits of one base, most significant first, as digits of another. Leading zeros
are kept one by one, so that nothing is lost either way. -/

namespace AmlReal.Foundations.Base58

/-- The digits of the same number in another base, with as many leading zeros. -/
def convert (a b : Nat) (ds : List Nat) : List Nat :=
  List.replicate (ds.takeWhile (· = 0)).length 0 ++ (Nat.digits b (Nat.ofDigits a ds.reverse)).reverse

def ALPHABET : List Char := "123456789ABCDEFGHJKLMNPQRSTUVWXYZabcdefghijkmnopqrstuvwxyz".toList

def symbol (d : Nat) : Char := ALPHABET.getD d '1'

/-- The place of a character in the alphabet. -/
def digit (c : Char) : Option Nat := ALPHABET.findIdx? fun o => o = c

/-- `bs58::encode` -/
def encode (bytes : List Nat) : List Char := (convert 256 58 bytes).map symbol

/-- `bs58::decode` -/
def decode (cs : List Char) : Option (List Nat) := (cs.mapM digit).map (convert 58 256)

/-! ## Conversion -/

theorem takeWhile_zeros {z : Nat} {rest : List Nat} (h : ∀ d, rest.head? = some d → d ≠ 0) :
    (List.replicate z 0 ++ rest).takeWhile (· = 0) = List.replicate z 0 := by
  induction z with
  | zero =>
    cases rest with
    | nil => rfl
    | cons d rest => exact List.takeWhile_cons_of_neg (by simpa using h d rfl)
  | succ z ih => rw [List.replicate_succ, List.cons_append, List.takeWhile_cons_of_pos (by rfl), ih]

/-- A list of digits is some zeros and a list that does not start with one. -/
theorem zeros_and_rest (ds : List Nat) : ∃ rest, ds = List.replicate (ds.takeWhile (· = 0)).length 0 ++ rest ∧
    ∀ d, rest.head? = some d → d ≠ 0 := by
  induction ds with
  | nil => exact ⟨[], rfl, by simp⟩
  | cons d ds ih =>
    by_cases hd : d = 0
    · obtain ⟨rest, hds, hrest⟩ := ih
      refine ⟨rest, ?_, hrest⟩
      rw [List.takeWhile_cons_of_pos (by simpa using hd), List.length_cons, List.replicate_succ,
        List.cons_append, ← hds, hd]
    · refine ⟨d :: ds, ?_, fun d' h => by simp at h; exact h ▸ hd⟩
      rw [List.takeWhile_cons_of_neg (by simpa using hd)]
      rfl

theorem ofDigits_zeros (b z : Nat) (rest : List Nat) :
    Nat.ofDigits b (List.replicate z 0 ++ rest).reverse = Nat.ofDigits b rest.reverse := by
  rw [List.reverse_append, List.reverse_replicate, Nat.ofDigits_append_replicate_zero]

theorem head_digits_ne_zero {b n d : Nat} (h : (Nat.digits b n).reverse.head? = some d) : d ≠ 0 := by
  rw [List.head?_reverse] at h
  have hne : n ≠ 0 := by
    rintro rfl
    rw [Nat.digits_zero] at h
    cases h
  have hdigits : Nat.digits b n ≠ [] := Nat.digits_ne_nil_iff_ne_zero.mpr hne
  rw [List.getLast?_eq_getLast_of_ne_nil hdigits, Option.some.injEq] at h
  exact h ▸ Nat.getLast_digit_ne_zero b hne

/-- Digits that do not start with a zero are those of their number. -/
theorem digits_of_head {b : Nat} (hb : 1 < b) {ds : List Nat} (hlt : ∀ d ∈ ds, d < b)
    (hhead : ∀ d, ds.head? = some d → d ≠ 0) :
    (Nat.digits b (Nat.ofDigits b ds.reverse)).reverse = ds := by
  rw [Nat.digits_ofDigits b hb ds.reverse (fun d hd => hlt d (List.mem_reverse.mp hd)) fun hne => ?_,
    List.reverse_reverse]
  have hlast := List.getLast?_eq_getLast_of_ne_nil hne
  rw [List.getLast?_reverse] at hlast
  exact hhead _ hlast

theorem convert_convert {a b : Nat} (ha : 1 < a) {ds : List Nat} (h : ∀ d ∈ ds, d < a) :
    convert b a (convert a b ds) = ds := by
  obtain ⟨rest, hds, hrest⟩ := zeros_and_rest ds
  have hlt : ∀ d ∈ rest, d < a := fun d hd => h d (by rw [hds]; exact List.mem_append_right _ hd)
  have hvalue : Nat.ofDigits a ds.reverse = Nat.ofDigits a rest.reverse := by
    rw [hds, ofDigits_zeros]
  have hmid : convert a b ds = List.replicate (ds.takeWhile (· = 0)).length 0 ++
      (Nat.digits b (Nat.ofDigits a rest.reverse)).reverse := by
    rw [convert, hvalue]
  rw [hmid, convert, takeWhile_zeros fun d hd => head_digits_ne_zero hd, List.length_replicate,
    ofDigits_zeros, List.reverse_reverse, Nat.ofDigits_digits, digits_of_head ha hlt hrest]
  exact hds.symm

theorem convert_lt {a b : Nat} (hb : 1 < b) {ds : List Nat} : ∀ d ∈ convert a b ds, d < b := by
  intro d hd
  rcases List.mem_append.mp hd with hd | hd
  · rw [List.eq_of_mem_replicate hd]
    omega
  · exact Nat.digits_lt_base hb (List.mem_reverse.mp hd)

/-- Digits that do not start with a zero need none. -/
theorem convert_of_head {a b : Nat} {ds : List Nat} (hhead : ∀ d, ds.head? = some d → d ≠ 0) :
    convert a b ds = (Nat.digits b (Nat.ofDigits a ds.reverse)).reverse := by
  have hzeros := takeWhile_zeros (z := 0) hhead
  rw [List.replicate_zero, List.nil_append] at hzeros
  rw [convert, hzeros]
  rfl

/-- The leading digit of a number between two multiples of a power of the base. -/
theorem digits_head {b k d n : Nat} (hb : 1 < b) (hd : 0 < d) (hdb : d < b) (hlow : d * b ^ k ≤ n)
    (hhigh : n < (d + 1) * b ^ k) :
    (Nat.digits b n).reverse.head? = some d ∧ (Nat.digits b n).length = k + 1 := by
  have hpow : 0 < b ^ k := Nat.pow_pos (by omega)
  have hlength : (Nat.digits b n).length = k + 1 := by
    refine Nat.le_antisymm ((Nat.digits_length_le_iff hb n).mpr ?_) ((Nat.lt_digits_length_iff hb n).mpr ?_)
    · exact hhigh.trans_le (by rw [Nat.pow_succ, Nat.mul_comm (b ^ k)]; exact Nat.mul_le_mul_right _ hdb)
    · exact (Nat.le_mul_of_pos_left _ hd).trans hlow
  refine ⟨?_, hlength⟩
  obtain ⟨init, last, hdigits⟩ : ∃ init last, Nat.digits b n = init ++ [last] := by
    rcases List.eq_nil_or_concat' (Nat.digits b n) with h | h
    · rw [h] at hlength
      cases hlength
    · exact h
  have hvalue : Nat.ofDigits b init + b ^ k * last = n := by
    have hinit : init.length = k := by
      rw [hdigits, List.length_append] at hlength
      simpa using hlength
    have h := Nat.ofDigits_digits b n
    rw [hdigits, Nat.ofDigits_append, hinit, Nat.ofDigits_singleton] at h
    exact h
  have hinitlt : Nat.ofDigits b init < b ^ k := by
    have hinit : init.length = k := by
      rw [hdigits, List.length_append] at hlength
      simpa using hlength
    rw [← hinit]
    refine Nat.ofDigits_lt_base_pow_length hb fun x hx => Nat.digits_lt_base hb (m := n) ?_
    rw [hdigits]
    exact List.mem_append_left _ hx
  have hlast : last = d := by
    refine Nat.le_antisymm (Nat.lt_succ_iff.mp ?_) (Nat.lt_succ_iff.mp ?_)
    · refine Nat.lt_of_mul_lt_mul_left (a := b ^ k) ?_
      rw [Nat.mul_comm (b ^ k) (d + 1)]
      omega
    · refine Nat.lt_of_mul_lt_mul_left (a := b ^ k) ?_
      rw [Nat.mul_comm (b ^ k) d, Nat.mul_succ]
      omega
  rw [hdigits, List.reverse_append, hlast]
  rfl

/-! ## Texts -/

theorem digit_symbol {d : Nat} (h : d < 58) : digit (symbol d) = some d := by
  have hall : ∀ d < 58, digit (symbol d) = some d := by decide
  exact hall d h

theorem digit_some {c : Char} {d : Nat} (h : digit c = some d) : d < 58 ∧ symbol d = c := by
  obtain ⟨hlt, hc, _⟩ := List.findIdx?_eq_some_iff_getElem.mp h
  have hlength : ALPHABET.length = 58 := by decide
  refine ⟨hlength ▸ hlt, ?_⟩
  rw [symbol, List.getD_eq_getElem?_getD, List.getElem?_eq_getElem hlt, Option.getD_some]
  exact of_decide_eq_true hc

theorem mapM_symbol {ds : List Nat} (h : ∀ d ∈ ds, d < 58) : (ds.map symbol).mapM digit = some ds := by
  induction ds with
  | nil => rfl
  | cons d ds ih =>
    obtain ⟨hd, hds⟩ := List.forall_mem_cons.mp h
    exact Numerals.mapM_cons_some.mpr ⟨d, ds, digit_symbol hd, ih hds, rfl⟩

theorem map_symbol {cs : List Char} {ds : List Nat} (h : cs.mapM digit = some ds) :
    ds.map symbol = cs ∧ ∀ d ∈ ds, d < 58 := by
  induction cs generalizing ds with
  | nil =>
    cases h
    exact ⟨rfl, by simp⟩
  | cons c cs ih =>
    obtain ⟨d, rest, hd, hrest, rfl⟩ := Numerals.mapM_cons_some.mp h
    obtain ⟨hmap, hlt⟩ := ih hrest
    obtain ⟨hdlt, hsymbol⟩ := digit_some hd
    exact ⟨by rw [List.map_cons, hsymbol, hmap], List.forall_mem_cons.mpr ⟨hdlt, hlt⟩⟩

theorem decode_encode {bytes : List Nat} (h : ∀ b ∈ bytes, b < 256) : decode (encode bytes) = some bytes := by
  rw [decode, encode, mapM_symbol (convert_lt (by decide)), Option.map_some, convert_convert (by decide) h]

theorem encode_decode {cs : List Char} {bytes : List Nat} (h : decode cs = some bytes) :
    encode bytes = cs := by
  obtain ⟨ds, hds, rfl⟩ := Option.map_eq_some_iff.mp h
  obtain ⟨hmap, hlt⟩ := map_symbol hds
  rw [encode, convert_convert (by decide) hlt, hmap]

theorem decode_lt {cs : List Char} {bytes : List Nat} (h : decode cs = some bytes) : ∀ b ∈ bytes, b < 256 := by
  obtain ⟨ds, _, rfl⟩ := Option.map_eq_some_iff.mp h
  exact convert_lt (by decide)

end AmlReal.Foundations.Base58
