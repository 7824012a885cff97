import Mathlib.Data.Char
import Mathlib.Data.List.DropRight
import Mathlib.Data.List.Lex
import Mathlib.Tactic.Ring

/-! # Decimal texts

The number that a text of digits spells. The shortest spelling is the text
without its leading zeros, and texts of one length compare as their numbers. -/

namespace AmlReal.Foundations.Decimals

/-- One digit or more. -/
def Digits (text : List Char) : Prop := text ≠ [] ∧ ∀ c ∈ text, c.isDigit = true

instance (text : List Char) : Decidable (Digits text) := inferInstanceAs (Decidable (_ ∧ _))

def number (text : List Char) : Nat := Nat.ofDigitChars 10 text 0

@[simp] theorem number_nil : number [] = 0 := rfl

theorem number_append (a b : List Char) : number (a ++ b) = 10 ^ b.length * number a + number b := by
  show Nat.ofDigitChars 10 (a ++ b) 0 = _
  rw [Nat.ofDigitChars_append, Nat.ofDigitChars_eq_ofDigitChars_zero]
  rfl

theorem number_cons (c : Char) (text : List Char) :
    number (c :: text) = 10 ^ text.length * number [c] + number text := number_append [c] text

theorem number_zeros_right (a : List Char) (n : Nat) :
    number (a ++ List.replicate n '0') = 10 ^ n * number a := by
  show Nat.ofDigitChars 10 (a ++ List.replicate n '0') 0 = _
  rw [Nat.ofDigitChars_append, Nat.ofDigitChars_replicate_zero]
  rfl

theorem number_zeros_left (n : Nat) (a : List Char) : number (List.replicate n '0' ++ a) = number a := by
  have hzero : number (List.replicate n '0') = 0 := by simpa using number_zeros_right [] n
  rw [number_append, hzero, Nat.mul_zero, Nat.zero_add]

theorem number_digit {c : Char} (h : c.isDigit = true) : number [c] < 10 ∧ c.toNat = 48 + number [c] := by
  have hdigit := Char.isDigit_iff_toNat.mp h
  have hvalue : number [c] = c.toNat - 48 := by
    show Nat.ofDigitChars 10 [c] 0 = _
    simp [Nat.ofDigitChars_cons]
  have hzero : '0'.toNat = 48 := rfl
  have hnine : '9'.toNat = 57 := rfl
  omega

theorem number_lt {text : List Char} (h : ∀ c ∈ text, c.isDigit = true) :
    number text < 10 ^ text.length := by
  induction text with
  | nil => simp
  | cons c text ih =>
    obtain ⟨hc, htext⟩ := List.forall_mem_cons.mp h
    have hdigit := (number_digit hc).1
    have hrest := ih htext
    have hle : 10 ^ text.length * number [c] ≤ 10 ^ text.length * 9 := Nat.mul_le_mul_left _ (by omega)
    rw [number_cons, List.length_cons, Nat.pow_succ]
    omega

/-! ## The shortest spelling -/

theorem isDigit_toDigits {n : Nat} {c : Char} (h : c ∈ Nat.toDigits 10 n) : c.isDigit = true :=
  Nat.isDigit_of_mem_toDigits (by omega) (by omega) h

theorem digits_toDigits (n : Nat) : Digits (Nat.toDigits 10 n) :=
  ⟨Nat.toDigits_ne_nil, fun _ => isDigit_toDigits⟩

@[simp] theorem number_toDigits (n : Nat) : number (Nat.toDigits 10 n) = n :=
  Nat.ofDigitChars_ten_toDigits

theorem toDigits_inj {m n : Nat} (h : Nat.toDigits 10 m = Nat.toDigits 10 n) : m = n := by
  rw [← number_toDigits m, h, number_toDigits]

theorem digitChar_number {c : Char} (h : c.isDigit = true) : Nat.digitChar (number [c]) = c := by
  obtain ⟨hlt, hvalue⟩ := number_digit h
  refine Char.toNat_inj.mp ?_
  rw [Nat.toNat_digitChar_of_lt_ten hlt, hvalue]

theorem toDigits_append {n : Nat} (hn : 0 < n) {text : List Char} (h : ∀ c ∈ text, c.isDigit = true) :
    Nat.toDigits 10 n ++ text = Nat.toDigits 10 (10 ^ text.length * n + number text) := by
  induction text generalizing n with
  | nil => simp
  | cons c text ih =>
    obtain ⟨hc, htext⟩ := List.forall_mem_cons.mp h
    have hlt := (number_digit hc).1
    have hone : Nat.toDigits 10 n ++ [c] = Nat.toDigits 10 (10 * n + number [c]) := by
      have happend := Nat.toDigits_append_toDigits (b := 10) (n := n) (d := number [c]) (by omega) hn hlt
      rwa [Nat.toDigits_of_lt_base hlt, digitChar_number hc] at happend
    calc Nat.toDigits 10 n ++ c :: text
        = (Nat.toDigits 10 n ++ [c]) ++ text := by simp
      _ = Nat.toDigits 10 (10 * n + number [c]) ++ text := by rw [hone]
      _ = Nat.toDigits 10 (10 ^ text.length * (10 * n + number [c]) + number text) := ih (by omega) htext
      _ = Nat.toDigits 10 (10 ^ (c :: text).length * n + number (c :: text)) := by
        rw [number_cons c text, List.length_cons, Nat.pow_succ]
        congr 1
        ring

/-- Digits that do not start with a zero are the shortest spelling of their number. -/
theorem toDigits_number {c : Char} {text : List Char} (h : ∀ d ∈ c :: text, d.isDigit = true)
    (hc : c ≠ '0') : Nat.toDigits 10 (number (c :: text)) = c :: text := by
  obtain ⟨hdigit, htext⟩ := List.forall_mem_cons.mp h
  obtain ⟨hlt, hvalue⟩ := number_digit hdigit
  have hpos : 0 < number [c] := by
    refine Nat.pos_of_ne_zero fun hzero => hc ?_
    rw [hzero] at hvalue
    exact Char.toNat_inj.mp hvalue
  rw [number_cons, ← toDigits_append hpos htext, Nat.toDigits_of_lt_base hlt, digitChar_number hdigit]
  rfl

/-- `trim_start_matches('0')`, with one zero left of a text of zeros. -/
theorem toDigits_trim {text : List Char} (h : ∀ c ∈ text, c.isDigit = true) :
    (if text.dropWhile (· = '0') = [] then ['0'] else text.dropWhile (· = '0')) =
      Nat.toDigits 10 (number text) := by
  induction text with
  | nil => rfl
  | cons c text ih =>
    obtain ⟨hc, htext⟩ := List.forall_mem_cons.mp h
    by_cases hzero : c = '0'
    · subst hzero
      rw [List.dropWhile_cons_of_pos (by simp), ih htext]
      exact congrArg _ (number_zeros_left 1 text).symm
    · rw [List.dropWhile_cons_of_neg (by simpa using hzero), if_neg (List.cons_ne_nil _ _),
        toDigits_number h hzero]

/-! ## Comparison -/

theorem cons_le_cons_iff {c d : Char} {a b : List Char} : c :: a ≤ d :: b ↔ c < d ∨ c = d ∧ a ≤ b := by
  have hlex : c :: a < d :: b ↔ c < d ∨ c = d ∧ a < b := List.cons_lex_cons_iff
  rw [le_iff_lt_or_eq, hlex, le_iff_lt_or_eq, List.cons.injEq]
  tauto

theorem number_le_iff {a b : List Char} (ha : ∀ c ∈ a, c.isDigit = true) (hb : ∀ c ∈ b, c.isDigit = true)
    (hlength : a.length = b.length) : a ≤ b ↔ number a ≤ number b := by
  induction a generalizing b with
  | nil =>
    cases b with
    | nil => simp
    | cons d b => cases hlength
  | cons c a ih =>
    cases b with
    | nil => cases hlength
    | cons d b =>
      obtain ⟨hc, ha⟩ := List.forall_mem_cons.mp ha
      obtain ⟨hd, hb⟩ := List.forall_mem_cons.mp hb
      have hlength : a.length = b.length := by simpa using hlength
      have hcd : c < d ↔ number [c] < number [d] := by
        have hcv := (number_digit hc).2
        have hdv := (number_digit hd).2
        show c.toNat < d.toNat ↔ _
        omega
      have halt := number_lt ha
      have hblt := number_lt hb
      rw [cons_le_cons_iff, ih ha hb hlength, number_cons c a, number_cons d b, hlength, hcd]
      rw [hlength] at halt
      rcases Nat.lt_trichotomy (number [c]) (number [d]) with hlt | heq | hgt
      · have hmul : 10 ^ b.length * (number [c] + 1) ≤ 10 ^ b.length * number [d] := Nat.mul_le_mul_left _ hlt
        rw [Nat.mul_succ] at hmul
        exact iff_of_true (Or.inl hlt) (by omega)
      · have hsame : c = d := by
          refine Char.toNat_inj.mp ?_
          rw [(number_digit hc).2, (number_digit hd).2, heq]
        subst hsame
        simp
      · have hmul : 10 ^ b.length * (number [d] + 1) ≤ 10 ^ b.length * number [c] := Nat.mul_le_mul_left _ hgt
        rw [Nat.mul_succ] at hmul
        refine iff_of_false ?_ (by omega)
        rintro (hlt | ⟨rfl, -⟩)
        · omega
        · exact Nat.lt_irrefl _ hgt

end AmlReal.Foundations.Decimals
