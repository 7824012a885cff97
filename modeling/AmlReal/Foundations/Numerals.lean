import Mathlib.Data.Nat.Digits.Lemmas
import AmlReal.Foundations.HexText

/-! # Numerals without leading zeros

What a text of digits spells in a base. A number has at most one minimal
spelling where the digits have one spelling each, and its length tells how large
the number is. The bytes of a word, least significant first, are the same
notion in base 256. -/

namespace AmlReal.Foundations.Numerals

/-! ## Texts of digits -/

/-- Spellings of the digits below `base`, with one for zero. -/
structure DigitSystem (digit : Char → Option Nat) (base : Nat) : Prop where
  one_lt : 1 < base
  lt : ∀ c d, digit c = some d → d < base
  zero : ∀ c, digit c = some 0 ↔ c = '0'

/-- The minimal spelling of a number, most significant digit first. -/
structure Spells (digit : Char → Option Nat) (base : Nat) (text : List Char) (n : Nat) : Prop where
  nonempty : text ≠ []
  minimal : text.head? = some '0' → text = ['0']
  value : ∃ ds, text.mapM digit = some ds ∧ Nat.ofDigits base ds.reverse = n

theorem mapM_cons_some {α β : Type} {f : α → Option β} {x : α} {xs : List α} {ys : List β} :
    (x :: xs).mapM f = some ys ↔ ∃ y rest, f x = some y ∧ xs.mapM f = some rest ∧ ys = y :: rest := by
  rw [List.mapM_cons]
  simp only [Option.bind_eq_bind, Option.bind_eq_some_iff, Option.pure_def, Option.some.injEq]
  constructor
  · rintro ⟨y, hy, rest, hrest, rfl⟩; exact ⟨y, rest, hy, hrest, rfl⟩
  · rintro ⟨y, rest, hy, hrest, rfl⟩; exact ⟨y, hy, rest, hrest, rfl⟩

theorem mapM_length {α β : Type} {f : α → Option β} {xs : List α} {ys : List β}
    (h : xs.mapM f = some ys) : ys.length = xs.length := by
  induction xs generalizing ys with
  | nil => cases h; rfl
  | cons x xs ih =>
    obtain ⟨y, rest, _, hrest, rfl⟩ := mapM_cons_some.mp h
    rw [List.length_cons, List.length_cons, ih hrest]

theorem mapM_mem {α β : Type} {f : α → Option β} {xs : List α} {ys : List β}
    (h : xs.mapM f = some ys) : ∀ y ∈ ys, ∃ x ∈ xs, f x = some y := by
  induction xs generalizing ys with
  | nil => cases h; simp
  | cons x xs ih =>
    obtain ⟨y, rest, hy, hrest, rfl⟩ := mapM_cons_some.mp h
    refine List.forall_mem_cons.mpr ⟨⟨x, by simp, hy⟩, fun z hz => ?_⟩
    obtain ⟨w, hw, hf⟩ := ih hrest z hz
    exact ⟨w, by simp [hw], hf⟩

theorem mapM_isSome {α β : Type} {f : α → Option β} {xs : List α} {ys : List β}
    (h : xs.mapM f = some ys) : ∀ x ∈ xs, (f x).isSome := by
  induction xs generalizing ys with
  | nil => simp
  | cons x xs ih =>
    obtain ⟨y, rest, hy, hrest, _⟩ := mapM_cons_some.mp h
    exact List.forall_mem_cons.mpr ⟨by rw [hy]; rfl, ih hrest⟩

theorem mapM_reverse {α β : Type} {f : α → Option β} {xs : List α} {ys : List β}
    (h : xs.mapM f = some ys) : xs.reverse.mapM f = some ys.reverse := by
  induction xs generalizing ys with
  | nil => cases h; rfl
  | cons x xs ih =>
    obtain ⟨y, rest, hy, hrest, rfl⟩ := mapM_cons_some.mp h
    rw [List.reverse_cons, List.mapM_append, ih hrest]
    simp [hy]

theorem mapM_injective {α β : Type} {f : α → Option β}
    (hf : ∀ x y z, f x = some z → f y = some z → x = y) {xs ys : List α} {zs : List β}
    (hx : xs.mapM f = some zs) (hy : ys.mapM f = some zs) : xs = ys := by
  induction xs generalizing ys zs with
  | nil =>
    cases hx
    exact (List.eq_nil_of_length_eq_zero (by simpa using (mapM_length hy).symm)).symm
  | cons x xs ih =>
    obtain ⟨z, rest, hz, hrest, rfl⟩ := mapM_cons_some.mp hx
    cases ys with
    | nil => cases hy
    | cons y ys =>
      obtain ⟨z', rest', hz', hrest', he⟩ := mapM_cons_some.mp hy
      obtain ⟨rfl, rfl⟩ := List.cons.inj he
      rw [hf x y z hz hz', ih hrest hrest']

namespace Spells
variable {digit : Char → Option Nat} {base : Nat} {text : List Char} {n : Nat}

/-- A minimal spelling is that of zero or lists the digits of the number. -/
theorem cases (hd : DigitSystem digit base) (h : Spells digit base text n) :
    (n = 0 ∧ text = ['0']) ∨
      (0 < n ∧ ∃ ds, text.mapM digit = some ds ∧ ds.reverse = Nat.digits base n) := by
  obtain ⟨ds, hds, rfl⟩ := h.value
  cases text with
  | nil => exact absurd rfl h.nonempty
  | cons c rest =>
    obtain ⟨d, ds, hc, hrest, rfl⟩ := mapM_cons_some.mp hds
    by_cases hzero : c = '0'
    · subst hzero
      obtain rfl := (List.cons.inj (h.minimal rfl)).2
      cases hrest
      obtain rfl : d = 0 := by rw [(hd.zero '0').mpr rfl] at hc; exact (Option.some.inj hc).symm
      exact Or.inl ⟨by simp, rfl⟩
    · have hpos : d ≠ 0 := fun he => hzero ((hd.zero c).mp (he ▸ hc))
      have hlt : ∀ x ∈ (d :: ds).reverse, x < base := fun x hx => by
        obtain ⟨c', _, hc'⟩ := mapM_mem hds x (List.mem_reverse.mp hx)
        exact hd.lt c' x hc'
      have hdigits := Nat.digits_ofDigits base hd.one_lt _ hlt (by simpa using hpos)
      refine Or.inr ⟨?_, d :: ds, hds, hdigits.symm⟩
      rw [Nat.pos_iff_ne_zero]
      intro he
      rw [he, Nat.digits_zero] at hdigits
      simp at hdigits

theorem length_le_iff (hd : DigitSystem digit base) (h : Spells digit base text n) {k : Nat}
    (hk : 0 < k) : text.length ≤ k ↔ n < base ^ k := by
  have hbase : 0 < base := Nat.lt_trans Nat.zero_lt_one hd.one_lt
  rcases h.cases hd with ⟨rfl, rfl⟩ | ⟨_, ds, hds, hdigits⟩
  · exact iff_of_true hk (Nat.pow_pos hbase)
  · rw [← Nat.digits_length_le_iff hd.one_lt, ← hdigits, List.length_reverse, mapM_length hds]

/-- Where every digit has one spelling, so has every number. -/
theorem unique (hd : DigitSystem digit base)
    (hone : ∀ c c' d, digit c = some d → digit c' = some d → c = c') {other : List Char}
    (h : Spells digit base text n) (h' : Spells digit base other n) : text = other := by
  rcases h.cases hd with ⟨rfl, rfl⟩ | ⟨hpos, ds, hds, hdigits⟩ <;>
    rcases h'.cases hd with ⟨hzero', rfl⟩ | ⟨hpos', ds', hds', hdigits'⟩
  · rfl
  · exact absurd hpos' (Nat.lt_irrefl 0)
  · exact absurd hpos (hzero' ▸ Nat.lt_irrefl 0)
  · have he : ds = ds' := List.reverse_injective (hdigits.trans hdigits'.symm)
    exact mapM_injective hone hds (he ▸ hds')

end Spells

/-- The decimal digit that a character spells. -/
def decimalDigit (c : Char) : Option Nat := if c.isDigit then some (c.toNat - '0'.toNat) else none

theorem decimalDigit_some {c : Char} {d : Nat} (h : decimalDigit c = some d) :
    d < 10 ∧ c.toNat = '0'.toNat + d := by
  unfold decimalDigit at h
  split at h
  · rename_i hdigit
    have := Char.isDigit_iff_toNat.mp hdigit
    have hz : '0'.toNat = 48 := rfl
    have hn : '9'.toNat = 57 := rfl
    obtain rfl := Option.some.inj h
    omega
  · cases h

theorem decimalSystem : DigitSystem decimalDigit 10 := by
  refine ⟨by omega, fun c d h => (decimalDigit_some h).1, fun c => ⟨fun h => ?_, fun h => h ▸ rfl⟩⟩
  exact Char.toNat_inj.mp (decimalDigit_some h).2

theorem decimalDigit_inj {c c' : Char} {d : Nat} (h : decimalDigit c = some d)
    (h' : decimalDigit c' = some d) : c = c' :=
  Char.toNat_inj.mp ((decimalDigit_some h).2.trans (decimalDigit_some h').2.symm)

theorem nibble_lt {c : Char} {d : Nat} (h : HexText.nibble c = some d) : d < 16 := by
  unfold HexText.nibble at h
  split at h
  · rename_i hdigit
    have := Char.isDigit_iff_toNat.mp hdigit
    have hz : '0'.toNat = 48 := rfl
    have hn : '9'.toNat = 57 := rfl
    obtain rfl := Option.some.inj h
    omega
  · split at h
    · rename_i hlower
      have hle : c.toNat ≤ 'f'.toNat := hlower.2
      have hf : 'f'.toNat = 102 := rfl
      have ha : 'a'.toNat = 97 := rfl
      obtain rfl := Option.some.inj h
      omega
    · split at h
      · rename_i hupper
        have hle : c.toNat ≤ 'F'.toNat := hupper.2
        have hf : 'F'.toNat = 70 := rfl
        have ha : 'A'.toNat = 65 := rfl
        obtain rfl := Option.some.inj h
        omega
      · cases h

theorem hexSystem : DigitSystem HexText.nibble 16 :=
  ⟨by omega, fun _ _ => nibble_lt, fun _ => ⟨HexText.nibble_eq_zero, fun h => h ▸ rfl⟩⟩

/-! ## Little-endian bytes -/

def leValue (bytes : List UInt8) : Nat := Nat.ofDigits 256 (bytes.map UInt8.toNat)

/-- The last `k` bytes of a number. -/
def toLeBytes : Nat → Nat → List UInt8
  | 0, _ => []
  | k + 1, n => UInt8.ofNat n :: toLeBytes k (n / 256)

@[simp] theorem leValue_nil : leValue [] = 0 := rfl

@[simp] theorem leValue_cons (b : UInt8) (bytes : List UInt8) :
    leValue (b :: bytes) = b.toNat + 256 * leValue bytes := by
  simp [leValue, Nat.ofDigits_cons]

theorem leValue_append (low high : List UInt8) :
    leValue (low ++ high) = leValue low + 256 ^ low.length * leValue high := by
  simp [leValue, Nat.ofDigits_append]

theorem leValue_replicate (k : Nat) : leValue (List.replicate k 0) = 0 := by
  induction k with
  | zero => rfl
  | succ k ih => rw [List.replicate_succ, leValue_cons, ih]; rfl

theorem leValue_lt (bytes : List UInt8) : leValue bytes < 256 ^ bytes.length := by
  have h := @Nat.ofDigits_lt_base_pow_length 256 (bytes.map UInt8.toNat) (by omega)
    (fun x hx => by obtain ⟨b, _, rfl⟩ := List.mem_map.mp hx; exact b.toNat_lt)
  rwa [List.length_map] at h

theorem leValue_inj {xs ys : List UInt8} (hlen : xs.length = ys.length)
    (h : leValue xs = leValue ys) : xs = ys := by
  refine List.map_injective_iff.mpr (fun _ _ => UInt8.toNat_inj.mp)
    (Nat.ofDigits_inj_of_len_eq (b := 256) (by omega) (by simpa using hlen) ?_ ?_ h) <;>
  · intro x hx
    obtain ⟨b, _, rfl⟩ := List.mem_map.mp hx
    exact b.toNat_lt

theorem leValue_eq_zero {bytes : List UInt8} : leValue bytes = 0 ↔ ∀ b ∈ bytes, b = 0 := by
  induction bytes with
  | nil => simp
  | cons b bytes ih =>
    rw [leValue_cons, List.forall_mem_cons, ← ih, ← UInt8.toNat_inj]
    simp

@[simp] theorem length_toLeBytes (k n : Nat) : (toLeBytes k n).length = k := by
  induction k generalizing n with
  | zero => rfl
  | succ k ih => rw [toLeBytes, List.length_cons, ih]

theorem leValue_toLeBytes (k n : Nat) : leValue (toLeBytes k n) = n % 256 ^ k := by
  induction k generalizing n with
  | zero => simp [toLeBytes, Nat.mod_one]
  | succ k ih =>
    rw [toLeBytes, leValue_cons, ih, Nat.pow_succ', Nat.mod_mul, UInt8.toNat_ofNat']

end AmlReal.Foundations.Numerals
