import AmlReal.Foundations.Checks
import AmlReal.Foundations.Decimals
import AmlReal.Foundations.JoinedText

/-! # Raw amounts

`RawAmount` of `types.rs`: unsigned integers below 2^256 as decimal texts, read
and written without any rounding. Texts are lists of characters. -/

namespace AmlReal.Warehouse.Amounts
open AmlReal.Foundations.Checks AmlReal.Foundations.Decimals AmlReal.Foundations.JoinedText

def MAX : List Char :=
  "115792089237316195423570985008687907853269984665640564039457584007913129639935".toList

/-- `RawAmount::parse`; the texts are compared as Rust compares strings. -/
def parse (raw : List Char) : Except String (List Char) := do
  ensure (raw ≠ [] ∧ raw.all Char.isDigit) "amount must be an unsigned decimal integer string"
  let trimmed := raw.dropWhile (· = '0')
  let normalized := if trimmed = [] then ['0'] else trimmed
  ensure (normalized.length < MAX.length ∨ normalized.length = MAX.length ∧ normalized ≤ MAX)
    "amount exceeds UInt256"
  pure normalized

/-- The only texts that parsing makes. -/
structure RawAmount where
  text : List Char
  parsed : parse text = .ok text

/-- `RawAmount::from_decimal` -/
def fromDecimal (value : List Char) (decimals : Nat) : Except String (List Char) := do
  let (whole, fraction) := (splitOnce '.' value).getD (value, [])
  ensure (whole ≠ [] ∧ whole.all Char.isDigit ∧ fraction.all Char.isDigit ∧
    ('.' ∉ value ∨ fraction ≠ [])) "invalid exact decimal amount"
  let significant := fraction.rdropWhile (· = '0')
  ensure (significant.length ≤ decimals) "amount has sub-atomic precision"
  let zeros := decimals - significant.length
  parse (whole ++ significant ++ List.replicate zeros '0')

/-- `RawAmount::decimal`; the format pads with zeros on the left. -/
def decimal (amount : List Char) (decimals : Nat) : List Char :=
  if decimals = 0 then amount
  else
    let padded := List.replicate (decimals + 1 - amount.length) '0' ++ amount
    let split := padded.length - decimals
    padded.take split ++ '.' :: padded.drop split

/-! ## Integers -/

theorem number_MAX : number MAX + 1 = 2 ^ 256 := by decide +kernel

theorem isDigit_MAX : ∀ c ∈ MAX, c.isDigit = true := List.all_eq_true.mp (by decide +kernel)

theorem length_MAX : MAX.length = 78 := by decide +kernel

/-- The comparison of texts is the bound of the numbers. -/
theorem below_MAX (n : Nat) : ((Nat.toDigits 10 n).length < MAX.length ∨
    (Nat.toDigits 10 n).length = MAX.length ∧ Nat.toDigits 10 n ≤ MAX) ↔ n < 2 ^ 256 := by
  have hmax := number_MAX
  have hdigits : ∀ c ∈ Nat.toDigits 10 n, c.isDigit = true := fun _ => isDigit_toDigits
  have hshort : (Nat.toDigits 10 n).length ≤ 77 ↔ n < 10 ^ 77 := Nat.length_toDigits_le_iff (by omega) (by omega)
  have hlong : (Nat.toDigits 10 n).length ≤ 78 ↔ n < 10 ^ 78 := Nat.length_toDigits_le_iff (by omega) (by omega)
  have hlow : 10 ^ 77 ≤ 2 ^ 256 := by decide
  have hhigh : 2 ^ 256 ≤ 10 ^ 78 := by decide
  rw [length_MAX]
  constructor
  · rintro (hlt | ⟨hlength, hle⟩)
    · exact (hshort.mp (by omega)).trans_le hlow
    · rw [number_le_iff hdigits isDigit_MAX (hlength.trans length_MAX.symm), number_toDigits] at hle
      omega
  · intro h
    have hle : (Nat.toDigits 10 n).length ≤ 78 := hlong.mpr (h.trans_le hhigh)
    by_cases hlt : (Nat.toDigits 10 n).length < 78
    · exact Or.inl hlt
    · have hlength : (Nat.toDigits 10 n).length = 78 := by omega
      refine Or.inr ⟨hlength, ?_⟩
      rw [number_le_iff hdigits isDigit_MAX (hlength.trans length_MAX.symm), number_toDigits]
      omega

theorem parse_eq {raw : List Char} (h : Digits raw) : parse raw =
    if number raw < 2 ^ 256 then .ok (Nat.toDigits 10 (number raw)) else .error "amount exceeds UInt256" := by
  unfold parse
  rw [ensure_eq ⟨h.1, List.all_eq_true.mpr h.2⟩, ok_bind]
  show (ensure _ _ >>= fun _ => pure (if raw.dropWhile (· = '0') = [] then ['0'] else _)) = _
  rw [toDigits_trim h.2]
  unfold ensure
  simp only [below_MAX]
  split_ifs <;> rfl

theorem parse_ok {raw amount : List Char} : parse raw = .ok amount ↔
    Digits raw ∧ number raw < 2 ^ 256 ∧ amount = Nat.toDigits 10 (number raw) := by
  constructor
  · intro h
    have hdigits : Digits raw := by
      obtain ⟨_, hall, _⟩ := bind_ok h
      obtain ⟨hne, hall⟩ := ensure_ok hall
      exact ⟨hne, List.all_eq_true.mp hall⟩
    rw [parse_eq hdigits] at h
    split_ifs at h with hlt
    exact ⟨hdigits, hlt, (Except.ok.inj h).symm⟩
  · rintro ⟨hdigits, hlt, rfl⟩
    rw [parse_eq hdigits, if_pos hlt]

theorem parse_toDigits {n : Nat} (h : n < 2 ^ 256) : parse (Nat.toDigits 10 n) = .ok (Nat.toDigits 10 n) :=
  parse_ok.mpr ⟨digits_toDigits n, by rwa [number_toDigits], by rw [number_toDigits]⟩

/-- Raw amounts are the shortest spellings of the numbers below 2^256. -/
theorem RawAmount.spells (amount : RawAmount) : ∃ n < 2 ^ 256, amount.text = Nat.toDigits 10 n := by
  obtain ⟨_, hlt, htext⟩ := parse_ok.mp amount.parsed
  exact ⟨_, hlt, htext⟩

def RawAmount.ofNat (n : Nat) (h : n < 2 ^ 256) : RawAmount := ⟨Nat.toDigits 10 n, parse_toDigits h⟩

/-! ## Decimal units -/

/-- The text is a decimal numeral of `mantissa / 10 ^ scale`. -/
inductive Numeral : List Char → Nat → Nat → Prop
  | whole {whole : List Char} : Digits whole → Numeral whole (number whole) 0
  | point {whole fraction : List Char} : Digits whole → Digits fraction →
    Numeral (whole ++ '.' :: fraction) (number (whole ++ fraction)) fraction.length

/-- The value of the text, times `10 ^ decimals`, is the integer `n`. -/
def Units (value : List Char) (decimals n : Nat) : Prop :=
  ∃ mantissa scale, Numeral value mantissa scale ∧ mantissa * 10 ^ decimals = n * 10 ^ scale

theorem point_notMem {text : List Char} (h : ∀ c ∈ text, c.isDigit = true) : '.' ∉ text :=
  fun hmem => absurd (h _ hmem) (by decide)

/-- A fraction is its significant digits and zeros; the last significant digit is none. -/
theorem trim_fraction (fraction : List Char) : ∃ zeros,
    fraction = fraction.rdropWhile (· = '0') ++ List.replicate zeros '0' ∧
    ∀ front d, fraction.rdropWhile (· = '0') = front ++ [d] → d ≠ '0' := by
  induction fraction using List.reverseRecOn with
  | nil => exact ⟨0, rfl, by simp⟩
  | append_singleton front d ih =>
    by_cases hd : d = '0'
    · obtain ⟨zeros, hfront, hlast⟩ := ih
      refine ⟨zeros + 1, ?_, ?_⟩
      · rw [List.rdropWhile_concat_pos _ _ _ (by simpa using hd), List.replicate_succ', ← List.append_assoc,
          ← hfront, hd]
      · rwa [List.rdropWhile_concat_pos _ _ _ (by simpa using hd)]
    · have hkeep : (front ++ [d]).rdropWhile (· = '0') = front ++ [d] :=
        List.rdropWhile_concat_neg _ _ _ (by simpa using hd)
      rw [hkeep]
      refine ⟨0, by simp, fun front' d' h => ?_⟩
      have hlast := (List.append_inj' h rfl).2
      rwa [← (List.cons.inj hlast).1]

/-- What the digits say, once the trailing zeros of the fraction are gone. -/
theorem units_iff {whole significant : List Char} {zeros decimals n : Nat}
    (hdigits : ∀ c ∈ whole ++ significant, c.isDigit = true)
    (hlast : ∀ front d, significant = front ++ [d] → d ≠ '0') :
    number (whole ++ (significant ++ List.replicate zeros '0')) * 10 ^ decimals =
        n * 10 ^ (significant ++ List.replicate zeros '0').length ↔
      significant.length ≤ decimals ∧
        n = number (whole ++ significant ++ List.replicate (decimals - significant.length) '0') := by
  rw [← List.append_assoc, number_zeros_right, number_zeros_right, List.length_append, List.length_replicate]
  have hcancel : 10 ^ zeros * number (whole ++ significant) * 10 ^ decimals =
      n * 10 ^ (significant.length + zeros) ↔
      number (whole ++ significant) * 10 ^ decimals = n * 10 ^ significant.length := by
    have hpos : 0 < 10 ^ zeros := Nat.pow_pos (by omega)
    rw [Nat.pow_add, Nat.mul_assoc, ← Nat.mul_assoc n, Nat.mul_comm (n * 10 ^ significant.length)]
    exact Nat.mul_right_inj hpos.ne'
  rw [hcancel]
  constructor
  · intro h
    have hle : significant.length ≤ decimals := by
      by_contra hlt
      -- otherwise ten divides the number of digits that do not end with a zero
      obtain ⟨k, hk⟩ : ∃ k, significant.length = decimals + (k + 1) :=
        ⟨significant.length - decimals - 1, by omega⟩
      have htimes : number (whole ++ significant) = n * 10 ^ (k + 1) := by
        have hpos : 0 < 10 ^ decimals := Nat.pow_pos (by omega)
        refine Nat.eq_of_mul_eq_mul_right hpos ?_
        rw [h, hk, Nat.pow_add]
        ring
      obtain ⟨front, d, hsignificant⟩ : ∃ front d, significant = front ++ [d] := by
        rcases List.eq_nil_or_concat' significant with hnil | hconcat
        · rw [hnil, List.length_nil] at hk
          omega
        · exact hconcat
      have hd : d.isDigit = true := hdigits d (by rw [hsignificant]; simp)
      have hvalue : number (whole ++ significant) = 10 * number (whole ++ front) + number [d] := by
        rw [hsignificant, ← List.append_assoc, number_append]
        rfl
      obtain ⟨hten, hcode⟩ := number_digit hd
      have hzero : number [d] = 0 := by
        rw [Nat.pow_succ] at htimes
        rw [hvalue, ← Nat.mul_assoc] at htimes
        omega
      refine hlast front d hsignificant ?_
      rw [hzero] at hcode
      exact Char.toNat_inj.mp hcode
    refine ⟨hle, ?_⟩
    have hpos : 0 < 10 ^ significant.length := Nat.pow_pos (by omega)
    refine Nat.eq_of_mul_eq_mul_right hpos ?_
    rw [← h, Nat.mul_comm (10 ^ (decimals - significant.length)), Nat.mul_assoc, ← Nat.pow_add,
      Nat.sub_add_cancel hle]
  · rintro ⟨hle, rfl⟩
    rw [Nat.mul_comm (10 ^ (decimals - significant.length)), Nat.mul_assoc, ← Nat.pow_add,
      Nat.sub_add_cancel hle]

/-- The checked parts of a text: its whole digits and its fraction. -/
theorem fromDecimal_parts {whole fraction : List Char} (hwhole : Digits whole)
    (hfraction : ∀ c ∈ fraction, c.isDigit = true) {value : List Char}
    (hsplit : (splitOnce '.' value).getD (value, []) = (whole, fraction))
    (hpoint : '.' ∉ value ∨ fraction ≠ []) (decimals : Nat) (amount : List Char) :
    fromDecimal value decimals = .ok amount ↔ ∃ n < 2 ^ 256,
      number (whole ++ fraction) * 10 ^ decimals = n * 10 ^ fraction.length ∧ amount = Nat.toDigits 10 n := by
  obtain ⟨zeros, htrim, hlast⟩ := trim_fraction fraction
  have hsignificant : ∀ c ∈ whole ++ fraction.rdropWhile (· = '0'), c.isDigit = true := by
    refine List.forall_mem_append.mpr ⟨hwhole.2, fun c hc => hfraction c ?_⟩
    rw [htrim]
    exact List.mem_append_left _ hc
  have hiff := fun n => @units_iff _ _ zeros decimals n hsignificant hlast
  simp only [← htrim] at hiff
  have hdigits : Digits (whole ++ fraction.rdropWhile (· = '0') ++
      List.replicate (decimals - (fraction.rdropWhile (· = '0')).length) '0') := by
    refine ⟨by simp [hwhole.1], List.forall_mem_append.mpr ⟨hsignificant, fun c hc => ?_⟩⟩
    rw [List.eq_of_mem_replicate hc]
    rfl
  have heq : fromDecimal value decimals = ensure ((fraction.rdropWhile (· = '0')).length ≤ decimals)
      "amount has sub-atomic precision" >>= fun _ => parse (whole ++ fraction.rdropWhile (· = '0') ++
        List.replicate (decimals - (fraction.rdropWhile (· = '0')).length) '0') := by
    unfold fromDecimal
    rw [hsplit]
    simp only [ensure_eq (show whole ≠ [] ∧ whole.all Char.isDigit ∧ fraction.all Char.isDigit ∧
      ('.' ∉ value ∨ fraction ≠ []) from ⟨hwhole.1, List.all_eq_true.mpr hwhole.2,
        List.all_eq_true.mpr hfraction, hpoint⟩), ok_bind]
  rw [heq]
  constructor
  · intro h
    obtain ⟨_, hle, h⟩ := bind_ok h
    obtain ⟨_, hlt, hamount⟩ := parse_ok.mp h
    exact ⟨_, hlt, (hiff _).mpr ⟨ensure_ok hle, rfl⟩, hamount⟩
  · rintro ⟨n, hlt, hunits, rfl⟩
    obtain ⟨hle, rfl⟩ := (hiff n).mp hunits
    rw [ensure_eq hle, ok_bind]
    exact parse_ok.mpr ⟨hdigits, hlt, rfl⟩

theorem fromDecimal_ok (value : List Char) (decimals : Nat) (amount : List Char) :
    fromDecimal value decimals = .ok amount ↔
      ∃ n < 2 ^ 256, Units value decimals n ∧ amount = Nat.toDigits 10 n := by
  constructor
  · intro h
    have hcheck := h
    unfold fromDecimal at hcheck
    obtain ⟨_, hensure, _⟩ := bind_ok hcheck
    have hform := ensure_ok hensure
    cases hsplit : splitOnce '.' value with
    | none =>
      rw [hsplit] at hform
      obtain ⟨hne, hall, -, -⟩ := hform
      have hwhole : Digits value := ⟨hne, List.all_eq_true.mp hall⟩
      obtain ⟨n, hlt, hunits, hamount⟩ := (fromDecimal_parts hwhole (List.forall_mem_nil _) (by rw [hsplit]; rfl)
        (Or.inl (splitOnce_eq_none.mp hsplit)) decimals amount).mp h
      refine ⟨n, hlt, ⟨number value, 0, .whole hwhole, ?_⟩, hamount⟩
      rwa [List.append_nil] at hunits
    | some parts =>
      obtain ⟨whole, fraction⟩ := parts
      rw [hsplit] at hform
      obtain ⟨hne, hall, hfraction, hpoint⟩ := hform
      obtain ⟨rfl, _⟩ := splitOnce_eq_some.mp hsplit
      have hfraction' : fraction ≠ [] := hpoint.resolve_left fun h => h (by simp)
      have hdigits : Digits fraction := ⟨hfraction', List.all_eq_true.mp hfraction⟩
      have hwhole : Digits whole := ⟨hne, List.all_eq_true.mp hall⟩
      obtain ⟨n, hlt, hunits, hamount⟩ := (fromDecimal_parts hwhole hdigits.2 (by rw [hsplit]; rfl)
        hpoint decimals amount).mp h
      exact ⟨n, hlt, ⟨_, _, .point hwhole hdigits, hunits⟩, hamount⟩
  · rintro ⟨n, hlt, ⟨mantissa, scale, hnumeral, hunits⟩, hamount⟩
    cases hnumeral with
    | whole hwhole =>
      have hnone : splitOnce '.' value = none := splitOnce_none (point_notMem hwhole.2)
      refine (fromDecimal_parts hwhole (List.forall_mem_nil _) (by rw [hnone]; rfl)
        (Or.inl (point_notMem hwhole.2)) decimals amount).mpr ⟨n, hlt, ?_, hamount⟩
      rwa [List.append_nil]
    | @point whole fraction hwhole hfraction =>
      have hsplit : splitOnce '.' (whole ++ '.' :: fraction) = some (whole, fraction) :=
        splitOnce_append (point_notMem hwhole.2)
      exact (fromDecimal_parts hwhole hfraction.2 (by rw [hsplit]; rfl) (Or.inr hfraction.1)
        decimals amount).mpr ⟨n, hlt, hunits, hamount⟩

/-- A written amount is a numeral of the amount in its units. -/
theorem decimal_units (n decimals : Nat) : Units (decimal (Nat.toDigits 10 n) decimals) decimals n := by
  have hdigits := digits_toDigits n
  unfold decimal
  split_ifs with hzero
  · refine ⟨number (Nat.toDigits 10 n), 0, .whole hdigits, ?_⟩
    rw [number_toDigits, hzero]
  · generalize hpadded : List.replicate (decimals + 1 - (Nat.toDigits 10 n).length) '0' ++
      Nat.toDigits 10 n = padded
    have hlength : decimals < padded.length := by
      rw [← hpadded, List.length_append, List.length_replicate]
      omega
    have hall : ∀ c ∈ padded, c.isDigit = true := by
      rw [← hpadded]
      refine List.forall_mem_append.mpr ⟨fun c hc => ?_, hdigits.2⟩
      rw [List.eq_of_mem_replicate hc]
      rfl
    have hwhole : Digits (padded.take (padded.length - decimals)) := by
      refine ⟨fun hnil => ?_, fun c hc => hall c (List.mem_of_mem_take hc)⟩
      have hlen := congrArg List.length hnil
      rw [List.length_take, List.length_nil] at hlen
      omega
    have hdrop : (padded.drop (padded.length - decimals)).length = decimals := by
      rw [List.length_drop]
      omega
    have hfraction : Digits (padded.drop (padded.length - decimals)) := by
      refine ⟨fun hnil => ?_, fun c hc => hall c (List.mem_of_mem_drop hc)⟩
      rw [hnil, List.length_nil] at hdrop
      exact hzero hdrop.symm
    refine ⟨_, _, .point hwhole hfraction, ?_⟩
    rw [List.take_append_drop, hdrop, ← hpadded, number_zeros_left, number_toDigits]

/-- Decimal units are read exactly, or not at all, and every amount is read back from what is
written of it. -/
theorem fromDecimal_exact :
    (∀ value decimals amount, fromDecimal value decimals = .ok amount ↔
      ∃ n < 2 ^ 256, Units value decimals n ∧ amount = Nat.toDigits 10 n) ∧
    ∀ (amount : RawAmount) (decimals : Nat),
      fromDecimal (decimal amount.text decimals) decimals = .ok amount.text := by
  refine ⟨fromDecimal_ok, fun amount decimals => ?_⟩
  obtain ⟨n, hlt, htext⟩ := amount.spells
  rw [htext]
  exact (fromDecimal_ok _ _ _).mpr ⟨n, hlt, decimal_units n decimals, rfl⟩

example : fromDecimal "1.50".toList 6 = .ok "1500000".toList := by decide +kernel
example : fromDecimal "0.0000001".toList 6 = .error "amount has sub-atomic precision" := by decide +kernel

end AmlReal.Warehouse.Amounts
