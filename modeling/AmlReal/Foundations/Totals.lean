import Mathlib.Algebra.GroupWithZero.Nat
import Mathlib.Algebra.BigOperators.Group.List.Basic
import Mathlib.Data.List.Induction
import AmlReal.Foundations.EntryList

/-! # Totals by key

Amounts are added up under their keys, in a width the sums can exceed. As long
as they do not, every key stands once in the result, with what its entries add
up to. -/

namespace AmlReal.Foundations.Totals
open AmlReal.Foundations.EntryList

section
variable {κ : Type} [DecidableEq κ]

/-- `*totals.entry(key).or_default() += amount` -/
def addAmount (width : Nat) (totals : List (κ × Nat)) (entry : κ × Nat) : List (κ × Nat) :=
  put totals entry.1 (((get totals entry.1).getD 0 + entry.2) % width)

def totals (width : Nat) (entries : List (κ × Nat)) : List (κ × Nat) :=
  entries.foldl (addAmount width) []

/-- What the entries of a key add up to. -/
def amountUnder (entries : List (κ × Nat)) (k : κ) : Nat :=
  ((entries.filter fun e => e.1 = k).map Prod.snd).sum

variable {width : Nat}

theorem totals_concat (entries : List (κ × Nat)) (e : κ × Nat) :
    totals width (entries ++ [e]) = addAmount width (totals width entries) e := by
  rw [totals, List.foldl_append]
  rfl

theorem amountUnder_cons (e : κ × Nat) (entries : List (κ × Nat)) (k : κ) :
    amountUnder (e :: entries) k = (if e.1 = k then e.2 else 0) + amountUnder entries k := by
  unfold amountUnder
  by_cases hk : e.1 = k
  · simp [hk]
  · simp [hk]

theorem amountUnder_append (xs ys : List (κ × Nat)) (k : κ) :
    amountUnder (xs ++ ys) k = amountUnder xs k + amountUnder ys k := by
  simp [amountUnder]

theorem amountUnder_eq_zero {entries : List (κ × Nat)} {k : κ} (h : ∀ e ∈ entries, e.1 ≠ k) :
    amountUnder entries k = 0 := by
  have hnone : entries.filter (fun e => e.1 = k) = [] :=
    List.filter_eq_nil_iff.mpr fun e he => by simpa using h e he
  simp [amountUnder, hnone]

theorem amountUnder_perm {xs ys : List (κ × Nat)} (h : xs.Perm ys) (k : κ) :
    amountUnder xs k = amountUnder ys k :=
  List.Perm.sum_eq ((h.filter _).map _)

/-- The entries are made of those of a list that pass a test. -/
theorem amountUnder_filter_map {α : Type} (f : α → κ × Nat) (p : α → Bool) (xs : List α) (k : κ) :
    amountUnder ((xs.filter p).map f) k =
      (xs.map fun a => if p a ∧ (f a).1 = k then (f a).2 else 0).sum := by
  induction xs with
  | nil => rfl
  | cons a xs ih =>
    rw [List.map_cons, List.sum_cons, ← ih]
    by_cases hp : p a
    · rw [List.filter_cons_of_pos hp, List.map_cons, amountUnder_cons]
      simp [hp]
    · rw [List.filter_cons_of_neg hp]
      simp [hp]

theorem keyed_totals (entries : List (κ × Nat)) : Keyed (totals width entries) := by
  induction entries using List.reverseRecOn with
  | nil => exact Keyed.nil
  | append_singleton entries e ih =>
    rw [totals_concat]
    exact ih.put _ _

theorem get_totals (entries : List (κ × Nat)) (k : κ) :
    get (totals width entries) k =
      if ∃ e ∈ entries, e.1 = k then some (amountUnder entries k % width) else none := by
  induction entries using List.reverseRecOn with
  | nil => simp [totals, EntryList.get]
  | append_singleton entries e ih =>
    rw [totals_concat, addAmount, get_put]
    by_cases hk : k = e.1
    · subst hk
      have hexists : ∃ e' ∈ entries ++ [e], e'.1 = e.1 := ⟨e, by simp, rfl⟩
      rw [if_pos rfl, if_pos hexists, ih, amountUnder_append, amountUnder_cons, if_pos rfl]
      by_cases hold : ∃ e' ∈ entries, e'.1 = e.1
      · rw [if_pos hold, Option.getD_some, Nat.mod_add_mod]
        rfl
      · have hzero : amountUnder entries e.1 = 0 :=
          amountUnder_eq_zero fun e' he' heq => hold ⟨e', he', heq⟩
        rw [if_neg hold, Option.getD_none, hzero, Nat.zero_add, Nat.zero_add]
        rfl
    · rw [if_neg hk, ih, amountUnder_append, amountUnder_cons, if_neg (Ne.symm hk)]
      have hiff : (∃ e' ∈ entries ++ [e], e'.1 = k) ↔ ∃ e' ∈ entries, e'.1 = k := by
        simp [Ne.symm hk]
      by_cases hold : ∃ e' ∈ entries, e'.1 = k
      · rw [if_pos hold, if_pos (hiff.mpr hold)]
        rfl
      · rw [if_neg hold, if_neg (mt hiff.mp hold)]

theorem mem_totals {entries : List (κ × Nat)} {k : κ} {n : Nat} :
    (k, n) ∈ totals width entries ↔
      (∃ e ∈ entries, e.1 = k) ∧ n = amountUnder entries k % width := by
  rw [← (keyed_totals entries).lookup_eq_some]
  change get (totals width entries) k = some n ↔ _
  rw [get_totals]
  by_cases hold : ∃ e ∈ entries, e.1 = k
  · rw [if_pos hold, Option.some.injEq, eq_comm, and_iff_right hold]
  · rw [if_neg hold]
    simp [hold]

/-- There is one total just when there is one key. -/
theorem totals_eq_singleton {entries : List (κ × Nat)} {k : κ} {n : Nat} :
    totals width entries = [(k, n)] ↔
      (entries ≠ [] ∧ ∀ e ∈ entries, e.1 = k) ∧ n = amountUnder entries k % width := by
  constructor
  · intro h
    have hmem : (k, n) ∈ totals width entries := by rw [h]; exact List.mem_singleton.mpr rfl
    obtain ⟨⟨e, he, _⟩, hn⟩ := mem_totals.mp hmem
    refine ⟨⟨List.ne_nil_of_mem he, fun e' he' => ?_⟩, hn⟩
    have hother : (e'.1, amountUnder entries e'.1 % width) ∈ totals width entries :=
      mem_totals.mpr ⟨⟨e', he', rfl⟩, rfl⟩
    rw [h] at hother
    exact congrArg Prod.fst (List.mem_singleton.mp hother)
  · rintro ⟨⟨hne, hall⟩, hn⟩
    obtain ⟨e, he⟩ := List.exists_mem_of_ne_nil entries hne
    have hmem : (k, n) ∈ totals width entries := mem_totals.mpr ⟨⟨e, he, hall e he⟩, hn⟩
    have hperm := perm_remove (keyed_totals entries)
      ((keyed_totals entries).lookup_eq_some.mpr hmem)
    have hrest : remove (totals width entries) k = [] := by
      refine List.filter_eq_nil_iff.mpr fun e' he' => ?_
      obtain ⟨⟨e'', he'', hkey⟩, _⟩ := mem_totals.mp (show (e'.1, e'.2) ∈ _ from he')
      simp [← hkey, hall e'' he'']
    rw [hrest] at hperm
    exact List.perm_singleton.mp hperm

/-! ## Without an overflow -/

theorem amountUnder_le {entries : List (κ × Nat)} {bound : Nat} (h : ∀ e ∈ entries, e.2 ≤ bound)
    (k : κ) : amountUnder entries k ≤ entries.length * bound := by
  induction entries with
  | nil => exact Nat.zero_le _
  | cons e rest ih =>
    obtain ⟨hhead, hrest⟩ := List.forall_mem_cons.mp h
    have hstep : (if e.1 = k then e.2 else 0) ≤ bound := by
      split
      · exact hhead
      · exact Nat.zero_le _
    rw [amountUnder_cons, List.length_cons, Nat.add_mul, Nat.one_mul, Nat.add_comm]
    exact Nat.add_le_add (ih hrest) hstep

/-- The width holds every sum of the entries. -/
def Fits (width : Nat) (entries : List (κ × Nat)) : Prop := ∀ k, amountUnder entries k < width

theorem Fits.mem_totals {entries : List (κ × Nat)} (h : Fits width entries) {k : κ} {n : Nat} :
    (k, n) ∈ totals width entries ↔ (∃ e ∈ entries, e.1 = k) ∧ n = amountUnder entries k := by
  rw [Totals.mem_totals, Nat.mod_eq_of_lt (h k)]

/-- What the totals hold under a key is what the entries add up to. -/
theorem Fits.amountUnder_totals {entries : List (κ × Nat)} (h : Fits width entries) (k : κ) :
    amountUnder (totals width entries) k = amountUnder entries k := by
  have hget : get (totals width entries) k = _ := get_totals entries k
  by_cases hold : ∃ e ∈ entries, e.1 = k
  · rw [if_pos hold, Nat.mod_eq_of_lt (h k)] at hget
    have hperm := perm_remove (keyed_totals entries) hget
    have hrest : amountUnder (remove (totals width entries) k) k = 0 :=
      amountUnder_eq_zero fun e he => (mem_remove.mp (show (e.1, e.2) ∈ _ from he)).2
    have hsum : amountUnder (totals width entries) k =
        amountUnder ((k, amountUnder entries k) :: remove (totals width entries) k) k :=
      amountUnder_perm hperm k
    rw [hsum, amountUnder_cons, hrest, if_pos rfl, Nat.add_zero]
  · rw [if_neg hold] at hget
    have hzero : amountUnder entries k = 0 :=
      amountUnder_eq_zero fun e he heq => hold ⟨e, he, heq⟩
    rw [hzero]
    refine amountUnder_eq_zero fun e he heq => ?_
    obtain ⟨hkey, _⟩ := Totals.mem_totals.mp (show (e.1, e.2) ∈ _ from he)
    exact hold (heq ▸ hkey)

end

end AmlReal.Foundations.Totals
