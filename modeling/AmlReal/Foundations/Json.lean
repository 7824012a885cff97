import Mathlib.Algebra.Group.Nat.Defs
import Mathlib.Data.Rat.Defs
import AmlReal.Foundations.JoinedText

/-! # JSON values

A number keeps its text: either it spells a natural number, or it is any other
literal together with its value, none where no finite value is near it. Objects
are the entries of their map; indexing a missing key or a value of another kind
is `null`. -/

namespace AmlReal.Foundations.Json

inductive Number where
  | natural (n : Nat)
  | other (text : String) (value : Option ℚ)
  deriving DecidableEq

inductive Value where
  | null
  | bool (b : Bool)
  | number (n : Number)
  | string (s : String)
  | array (items : List Value)
  | object (fields : List (String × Value))

instance : Inhabited Value := ⟨.null⟩

namespace Value

/-! ## Equality -/

mutual

def decEq : (a b : Value) → Decidable (a = b)
  | .null, .null => isTrue rfl
  | .bool a, .bool b => decidable_of_iff (a = b) (by simp)
  | .number a, .number b => decidable_of_iff (a = b) (by simp)
  | .string a, .string b => decidable_of_iff (a = b) (by simp)
  | .array a, .array b =>
    match decEqItems a b with
    | isTrue h => isTrue (h ▸ rfl)
    | isFalse h => isFalse fun he => h (by cases he; rfl)
  | .object a, .object b =>
    match decEqFields a b with
    | isTrue h => isTrue (h ▸ rfl)
    | isFalse h => isFalse fun he => h (by cases he; rfl)
  | .null, .bool _ | .null, .number _ | .null, .string _ | .null, .array _ | .null, .object _
  | .bool _, .null | .bool _, .number _ | .bool _, .string _ | .bool _, .array _
  | .bool _, .object _ | .number _, .null | .number _, .bool _ | .number _, .string _
  | .number _, .array _ | .number _, .object _ | .string _, .null | .string _, .bool _
  | .string _, .number _ | .string _, .array _ | .string _, .object _ | .array _, .null
  | .array _, .bool _ | .array _, .number _ | .array _, .string _ | .array _, .object _
  | .object _, .null | .object _, .bool _ | .object _, .number _ | .object _, .string _
  | .object _, .array _ => isFalse fun he => by cases he

def decEqItems : (a b : List Value) → Decidable (a = b)
  | [], [] => isTrue rfl
  | x :: xs, y :: ys =>
    match decEq x y, decEqItems xs ys with
    | isTrue hx, isTrue hxs => isTrue (by rw [hx, hxs])
    | isFalse hx, _ => isFalse fun he => hx (by cases he; rfl)
    | _, isFalse hxs => isFalse fun he => hxs (by cases he; rfl)
  | [], _ :: _ | _ :: _, [] => isFalse fun he => by cases he

def decEqFields : (a b : List (String × Value)) → Decidable (a = b)
  | [], [] => isTrue rfl
  | (k, x) :: xs, (l, y) :: ys =>
    match decEq x y, decEqFields xs ys, (inferInstance : Decidable (k = l)) with
    | isTrue hx, isTrue hxs, isTrue hk => isTrue (by rw [hx, hxs, hk])
    | isFalse hx, _, _ => isFalse fun he => hx (by cases he; rfl)
    | _, isFalse hxs, _ => isFalse fun he => hxs (by cases he; rfl)
    | _, _, isFalse hk => isFalse fun he => hk (by cases he; rfl)
  | [], _ :: _ | _ :: _, [] => isFalse fun he => by cases he

end

instance : DecidableEq Value := decEq

/-! ## Access -/

def get : Value → String → Option Value
  | .object fields, key => fields.lookup key
  | _, _ => none

/-- `value["key"]` -/
instance : GetElem Value String Value fun _ _ => True where
  getElem value key _ := (value.get key).getD .null

/-- `Value::pointer` along keys of objects. -/
def pointer (value : Value) (path : List String) : Option Value := path.foldlM get value

def asStr : Value → Option String
  | .string s => some s
  | _ => none

def asU64 : Value → Option Nat
  | .number (.natural n) => if n < 2 ^ 64 then some n else none
  | _ => none

def asF64 : Value → Option ℚ
  | .number (.natural n) => some n
  | .number (.other _ value) => value
  | _ => none

def asArray : Value → Option (List Value)
  | .array items => some items
  | _ => none

def ofNat (n : Nat) : Value := .number (.natural n)

/-- `value["key"] = item` on an object. -/
def set (value : Value) (key : String) (item : Value) : Value :=
  match value with
  | .object fields => .object ((key, item) :: fields.filter fun f => f.1 ≠ key)
  | v => v

/-- `Map::remove` on an object. -/
def remove (value : Value) (key : String) : Value :=
  match value with
  | .object fields => .object (fields.filter fun f => f.1 ≠ key)
  | v => v

theorem index_object (fields : List (String × Value)) (key : String) :
    (object fields)[key] = (fields.lookup key).getD .null := rfl

theorem lookup_filter_ne {fields : List (String × Value)} {key other : String} (h : other ≠ key) :
    (fields.filter fun f => f.1 ≠ key).lookup other = fields.lookup other := by
  induction fields with
  | nil => rfl
  | cons f rest ih =>
    obtain ⟨k, v⟩ := f
    by_cases hk : k = key
    · subst hk
      have hne : (other == k) = false := beq_false_of_ne h
      rw [List.filter_cons_of_neg (by simp), List.lookup_cons, hne]
      exact ih
    · rw [List.filter_cons_of_pos (by simpa using hk), List.lookup_cons, List.lookup_cons, ih]

theorem get_set {fields : List (String × Value)} {key other : String} {item : Value} :
    ((object fields).set key item).get other =
      if other = key then some item else (object fields).get other := by
  change ((key, item) :: fields.filter fun f => f.1 ≠ key).lookup other = _
  by_cases h : other = key
  · rw [if_pos h, h, List.lookup_cons_self]
  · rw [if_neg h, List.lookup_cons, beq_false_of_ne h]
    exact lookup_filter_ne h

theorem index_set_ne {value : Value} {key other : String} {item : Value} (h : other ≠ key) :
    (value.set key item)[other] = value[other] := by
  cases value with
  | object fields =>
    change (((object fields).set key item).get other).getD .null = _
    rw [get_set, if_neg h]; rfl
  | _ => rfl

theorem get_set_ne {value : Value} {key other : String} {item : Value} (h : other ≠ key) :
    (value.set key item).get other = value.get other := by
  cases value with
  | object fields => rw [get_set, if_neg h]
  | _ => rfl

theorem get_remove {fields : List (String × Value)} {key other : String} (h : other ≠ key) :
    ((object fields).remove key).get other = (object fields).get other := lookup_filter_ne h

@[simp] theorem asStr_string (s : String) : (string s).asStr = some s := rfl
@[simp] theorem asArray_array (items : List Value) : (array items).asArray = some items := rfl
@[simp] theorem asF64_ofNat (n : Nat) : (ofNat n).asF64 = some (n : ℚ) := rfl

theorem asU64_ofNat {n : Nat} (h : n < 2 ^ 64) : (ofNat n).asU64 = some n := if_pos h

theorem asU64_eq_some {value : Value} {n : Nat} (h : value.asU64 = some n) :
    value = ofNat n ∧ n < 2 ^ 64 := by
  cases value with
  | number number =>
    cases number with
    | natural m =>
      change (if m < 2 ^ 64 then some m else none) = some n at h
      split at h
      · rename_i hlt; obtain rfl := Option.some.inj h; exact ⟨rfl, hlt⟩
      · cases h
    | other text value => cases h
  | _ => cases h

theorem ofNat_inj {a b : Nat} (h : ofNat a = ofNat b) : a = b := by cases h; rfl

theorem asStr_eq_some {value : Value} {s : String} (h : value.asStr = some s) :
    value = .string s := by
  cases value with
  | string t => rw [Option.some.inj h]
  | _ => cases h

theorem asArray_eq_some {value : Value} {items : List Value} (h : value.asArray = some items) :
    value = .array items := by
  cases value with
  | array xs => rw [Option.some.inj h]
  | _ => cases h

end Value

/-! ## Decimal integers in strings -/

/-- `str::parse::<u64>` -/
def parseU64 (s : String) : Option Nat :=
  let digits := match s.toList with
    | '+' :: rest => rest
    | chars => chars
  if digits ≠ [] ∧ digits.all Char.isDigit ∧ Nat.ofDigitChars 10 digits 0 < 2 ^ 64 then
    some (Nat.ofDigitChars 10 digits 0)
  else none

theorem decimal_inj {a b : Nat} (h : a.repr = b.repr) : a = b :=
  JoinedText.repr_injective h

/-- The decimal spelling of a number reads back as the number. -/
theorem parseU64_repr {n : Nat} (h : n < 2 ^ 64) : parseU64 n.repr = some n := by
  have hdigits : ∀ c ∈ Nat.toDigits 10 n, c.isDigit := fun c hc =>
    Nat.isDigit_of_mem_toDigits (by omega) (by omega) hc
  have hplus : (match Nat.toDigits 10 n with
      | '+' :: rest => rest
      | chars => chars) = Nat.toDigits 10 n := by
    split
    · rename_i rest heq
      have := hdigits '+' (by rw [heq]; simp)
      cases this
    · rfl
  unfold parseU64
  simp only [Nat.toList_repr, hplus, Nat.ofDigitChars_ten_toDigits]
  rw [if_pos ⟨Nat.toDigits_ne_nil, by simpa using hdigits, h⟩]

end AmlReal.Foundations.Json
