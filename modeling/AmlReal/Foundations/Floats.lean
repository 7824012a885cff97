import Mathlib.Algebra.Order.Field.Rat
import Mathlib.Algebra.Order.Group.Abs
import Mathlib.Data.Rat.Floor
import Mathlib.Order.Monotone.Basic
import AmlReal.Foundations.Json

/-! # Floating-point operations

The operations of a program on its finite floating-point values, as functions
on the rationals they stand for. How they round is left open; `Exact` says that
they do not. -/

namespace AmlReal.Foundations.Floats

structure FloatOps where
  ofNat : Nat → ℚ
  mul : ℚ → ℚ → ℚ
  div : ℚ → ℚ → ℚ
  add : ℚ → ℚ → ℚ
  sub : ℚ → ℚ → ℚ
  powi : ℚ → Nat → ℚ
  powf : ℚ → ℚ → ℚ
  /-- The spelling of a value in JSON. -/
  text : ℚ → String

structure FloatOps.Exact (F : FloatOps) : Prop where
  ofNat : ∀ n, F.ofNat n = n
  mul : ∀ a b, F.mul a b = a * b
  div : ∀ a b, F.div a b = a / b
  add : ∀ a b, F.add a b = a + b
  sub : ∀ a b, F.sub a b = a - b
  powi : ∀ a n, F.powi a n = a ^ n

/-- The operations without rounding; a power with a natural exponent only. -/
def FloatOps.rational : FloatOps where
  ofNat n := n
  mul a b := a * b
  div a b := a / b
  add a b := a + b
  sub a b := a - b
  powi a n := a ^ n
  powf a b := a ^ b.floor.toNat
  text x := x.num.repr ++ "/" ++ x.den.repr

theorem FloatOps.rational_exact : FloatOps.rational.Exact :=
  ⟨fun _ => rfl, fun _ _ => rfl, fun _ _ => rfl, fun _ _ => rfl, fun _ _ => rfl, fun _ _ => rfl⟩

/-- A floating-point value in JSON. -/
def float (F : FloatOps) (x : ℚ) : Json.Value := .number (.other (F.text x) (some x))

theorem asF64_float (F : FloatOps) (x : ℚ) : (float F x).asF64 = some x := rfl

/-- `f64::clamp` -/
def clamp (x low high : ℚ) : ℚ := max low (min x high)

/-- `f64::round`: to the nearest integer, halves away from zero. -/
def roundAway (x : ℚ) : ℚ := if 0 ≤ x then ⌊x + 1 / 2⌋ else ⌈x - 1 / 2⌉

/-- Every operation is the exact one followed by one rounding, which is monotone
and leaves the integers of the mantissa alone. -/
structure FloatOps.Rounded (F : FloatOps) (rnd : ℚ → ℚ) : Prop where
  mono : Monotone rnd
  integer : ∀ n : Nat, n ≤ 2 ^ 53 → rnd n = n
  ofNat : ∀ n, F.ofNat n = rnd n
  mul : ∀ a b, F.mul a b = rnd (a * b)
  div : ∀ a b, F.div a b = rnd (a / b)
  add : ∀ a b, F.add a b = rnd (a + b)
  sub : ∀ a b, F.sub a b = rnd (a - b)

theorem FloatOps.rational_rounded : FloatOps.rational.Rounded id :=
  ⟨monotone_id, fun _ _ => rfl, fun _ => rfl, fun _ _ => rfl, fun _ _ => rfl, fun _ _ => rfl,
    fun _ _ => rfl⟩

end AmlReal.Foundations.Floats
