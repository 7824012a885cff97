import Mathlib.Data.List.Basic
import Mathlib.Data.List.Induction
import Mathlib.Algebra.Order.Group.Nat

/-! # Numerals of a fixed width

The last `n` digits of a number to a base, most significant first, and their
spelling in hexadecimal. A number that fits is given back by its digits. -/

namespace AmlReal.Foundations.FixedWidth

def digits (b : Nat) : Nat → Nat → List Nat
  | 0, _ => []
  | n + 1, v => digits b n (v / b) ++ [v % b]

/-- The number of digits, most significant first. -/
def number (b : Nat) (ds : List Nat) : Nat := ds.foldl (fun n d => b * n + d) 0

@[simp] theorem length_digits (b n v : Nat) : (digits b n v).length = n := by
  induction n generalizing v with
  | zero => rfl
  | succ n ih => rw [digits, List.length_append, ih, List.length_singleton]

theorem digits_lt {b : Nat} (hb : 0 < b) (n v : Nat) : ∀ d ∈ digits b n v, d < b := by
  induction n generalizing v with
  | zero => simp [digits]
  | succ n ih =>
    intro d hd
    rw [digits, List.mem_append, List.mem_singleton] at hd
    rcases hd with hd | rfl
    · exact ih _ d hd
    · exact Nat.mod_lt _ hb

theorem number_concat (b : Nat) (ds : List Nat) (d : Nat) :
    number b (ds ++ [d]) = b * number b ds + d := by
  simp [number, List.foldl_append]

theorem number_digits {b n v : Nat} (h : v < b ^ n) : number b (digits b n v) = v := by
  induction n generalizing v with
  | zero =>
    have hzero : v = 0 := by simpa using h
    rw [hzero]
    rfl
  | succ n ih =>
    have hdiv : v / b < b ^ n := by
      refine Nat.div_lt_of_lt_mul ?_
      rwa [Nat.mul_comm, ← Nat.pow_succ]
    rw [digits, number_concat, ih hdiv]
    exact Nat.div_add_mod v b

theorem digits_number {b : Nat} {ds : List Nat} (h : ∀ d ∈ ds, d < b) :
    digits b ds.length (number b ds) = ds := by
  induction ds using List.reverseRecOn with
  | nil => rfl
  | append_singleton ds d ih =>
    obtain ⟨hds, hd⟩ := List.forall_mem_append.mp h
    have hd : d < b := hd d (List.mem_singleton_self d)
    rw [List.length_append, List.length_singleton, digits, number_concat,
      Nat.mul_add_div (by omega), Nat.div_eq_of_lt hd, Nat.add_zero, ih hds, Nat.mul_add_mod,
      Nat.mod_eq_of_lt hd]

theorem number_lt {b : Nat} {ds : List Nat} (h : ∀ d ∈ ds, d < b) : number b ds < b ^ ds.length := by
  induction ds using List.reverseRecOn with
  | nil => simp [number]
  | append_singleton ds d ih =>
    obtain ⟨hds, hd⟩ := List.forall_mem_append.mp h
    have hd : d < b := hd d (List.mem_singleton_self d)
    have hle : number b ds + 1 ≤ b ^ ds.length := ih hds
    have hmul : b * (number b ds + 1) ≤ b * b ^ ds.length := Nat.mul_le_mul_left b hle
    rw [List.length_append, List.length_singleton, number_concat, Nat.pow_succ, Nat.mul_comm _ b]
    rw [Nat.mul_add, Nat.mul_one] at hmul
    omega

theorem digits_inj {b n v w : Nat} (hv : v < b ^ n) (hw : w < b ^ n)
    (h : digits b n v = digits b n w) : v = w := by
  rw [← number_digits hv, ← number_digits hw, h]

/-- The first digits are those of the quotient. -/
theorem digits_add (b m n v : Nat) :
    digits b (m + n) v = digits b m (v / b ^ n) ++ digits b n v := by
  induction n generalizing v with
  | zero => simp [digits]
  | succ n ih =>
    rw [← Nat.add_assoc, digits, ih, digits, List.append_assoc, Nat.pow_succ, Nat.mul_comm,
      Nat.div_div_eq_div_mul]

theorem digits_zero (b n : Nat) : digits b n 0 = List.replicate n 0 := by
  induction n with
  | zero => rfl
  | succ n ih => rw [digits, Nat.zero_div, ih, Nat.zero_mod, List.replicate_succ']

/-! ## Hexadecimal texts -/

/-- The format `{:#x}` of a value of `n` digits. -/
def hexText (n v : Nat) : String := "0x" ++ String.ofList ((digits 16 n v).map Nat.digitChar)

theorem digitChar_inj {i j : Nat} (hi : i < 16) (hj : j < 16)
    (h : Nat.digitChar i = Nat.digitChar j) : i = j := by
  have hall : ∀ a b : Fin 16, Nat.digitChar a = Nat.digitChar b → a = b := by decide
  exact congrArg Fin.val (hall ⟨i, hi⟩ ⟨j, hj⟩ h)

theorem toList_hexText (n v : Nat) :
    (hexText n v).toList = '0' :: 'x' :: (digits 16 n v).map Nat.digitChar := by
  simp [hexText]

theorem length_hexText (n v : Nat) : (hexText n v).toList.length = n + 2 := by
  rw [toList_hexText, List.length_cons, List.length_cons, List.length_map, length_digits]

theorem map_digitChar_inj {as bs : List Nat} (ha : ∀ d ∈ as, d < 16) (hb : ∀ d ∈ bs, d < 16)
    (h : as.map Nat.digitChar = bs.map Nat.digitChar) : as = bs := by
  induction as generalizing bs with
  | nil => exact (List.map_eq_nil_iff.mp h.symm).symm
  | cons a as ih =>
    cases bs with
    | nil => cases h
    | cons b bs =>
      obtain ⟨ha, has⟩ := List.forall_mem_cons.mp ha
      obtain ⟨hb, hbs⟩ := List.forall_mem_cons.mp hb
      obtain ⟨hhead, htail⟩ := List.cons.inj h
      rw [digitChar_inj ha hb hhead, ih has hbs htail]

theorem hexText_inj {n v w : Nat} (hv : v < 16 ^ n) (hw : w < 16 ^ n)
    (h : hexText n v = hexText n w) : v = w := by
  have hlist := congrArg String.toList h
  rw [toList_hexText, toList_hexText] at hlist
  have hdigits := (List.cons.inj (List.cons.inj hlist).2).2
  exact digits_inj hv hw
    (map_digitChar_inj (digits_lt (by omega) n v) (digits_lt (by omega) n w) hdigits)

/-- The characters of a hexadecimal text. -/
theorem mem_hexText {n v : Nat} {c : Char} (h : c ∈ (hexText n v).toList) :
    c = 'x' ∨ ∃ d < 16, c = Nat.digitChar d := by
  rw [toList_hexText] at h
  rcases List.mem_cons.mp h with rfl | h
  · exact Or.inr ⟨0, by omega, rfl⟩
  · rcases List.mem_cons.mp h with rfl | h
    · exact Or.inl rfl
    · obtain ⟨d, hd, rfl⟩ := List.mem_map.mp h
      exact Or.inr ⟨d, digits_lt (by omega) n v d hd, rfl⟩

end AmlReal.Foundations.FixedWidth
