import Mathlib.Data.List.Sort
import Mathlib.Order.Lattice

/-! # The first rows in an order

`ORDER BY key LIMIT n`: what it leaves out comes after what it keeps, and asking
for one row more than are kept shows whether anything was left out. -/

namespace AmlReal.Foundations.OrderedLimit

variable {κ α : Type} [LinearOrder κ] {key : α → κ} {n : Nat} {rows : List α} {a b : α}

variable (key n rows) in
def limited : List α := (rows.insertionSort fun a b => key a ≤ key b).take n

theorem mem_of_mem_limited (h : a ∈ limited key n rows) : a ∈ rows := by
  have hsorted := List.mem_of_mem_take h
  rwa [List.mem_insertionSort] at hsorted

theorem length_limited_le : (limited key n rows).length ≤ n := List.length_take_le ..

theorem take_limited : (limited key (n + 1) rows).take n = limited key n rows := by
  rw [limited, List.take_take, Nat.min_eq_left (Nat.le_succ n), limited]

/-- Where one row more was asked for and did not come, none was left out. -/
theorem mem_limited (h : (limited key (n + 1) rows).length ≤ n) (ha : a ∈ rows) : a ∈ limited key n rows := by
  have hlength : rows.length ≤ n := by
    rw [limited, List.length_take, List.length_insertionSort] at h
    omega
  rw [limited, List.take_of_length_le (by rwa [List.length_insertionSort]), List.mem_insertionSort]
  exact ha

/-- A row that is left out comes after every row that is kept. -/
theorem limited_first (ha : a ∈ rows) (hout : a ∉ limited key n rows) (hb : b ∈ limited key n rows) :
    key b ≤ key a := by
  have : Std.Total fun a b : α => key a ≤ key b := ⟨fun a b => le_total (key a) (key b)⟩
  have : IsTrans α fun a b => key a ≤ key b := ⟨fun a b c hab hbc => le_trans hab hbc⟩
  have hsorted : (rows.insertionSort fun a b => key a ≤ key b).Pairwise fun a b => key a ≤ key b :=
    List.pairwise_insertionSort _ _
  have hmem : a ∈ (rows.insertionSort fun a b => key a ≤ key b).take n ++
      (rows.insertionSort fun a b => key a ≤ key b).drop n := by
    rw [List.take_append_drop, List.mem_insertionSort]
    exact ha
  rw [← List.take_append_drop n (rows.insertionSort _)] at hsorted
  exact (List.pairwise_append.mp hsorted).2.2 b hb a ((List.mem_append.mp hmem).resolve_left hout)

end AmlReal.Foundations.OrderedLimit
