import Mathlib.Order.Lattice
import Mathlib.Data.List.Nodup

/-! # Ordered maps as sorted lists

A `BTreeMap` whose values hold their key is the list of its values in the order
of the keys. -/

namespace AmlReal.Foundations.SortedMap

variable {κ α : Type} [LinearOrder κ] (key : α → κ)

/-- In the order of the keys, one value for each. -/
def Sorted (values : List α) : Prop := values.Pairwise fun a b => key a < key b

/-- `BTreeMap::entry`: changes the value of a key, or inserts a new one. -/
def upsert (k : κ) (fresh : α) (change : α → α) : List α → List α
  | [] => [fresh]
  | a :: rest =>
    if key a = k then change a :: rest
    else if k < key a then fresh :: a :: rest
    else a :: upsert k fresh change rest

/-- `BTreeMap::insert`: the value takes the place of the one under its key. -/
def insert (a : α) (values : List α) : List α := upsert key (key a) a (fun _ => a) values

/-- `BTreeMap::get` -/
def find (k : κ) (values : List α) : Option α := values.find? fun a => key a = k

variable {key} {k : κ} {fresh : α} {change : α → α} {values : List α}

theorem Sorted.nodup (h : Sorted key values) : (values.map key).Nodup :=
  List.pairwise_map.mpr (h.imp ne_of_lt)

theorem find_mem {a : α} (h : find key k values = some a) : a ∈ values ∧ key a = k :=
  ⟨List.mem_of_find?_eq_some h, by simpa using List.find?_some h⟩

/-- The value of a key that is there. -/
theorem Sorted.find_key (h : Sorted key values) {a : α} (ha : a ∈ values) :
    find key (key a) values = some a := by
  cases hf : find key (key a) values with
  | none => exact absurd (by simp) (List.find?_eq_none.mp hf a ha)
  | some b =>
    obtain ⟨hb, hkey⟩ := find_mem hf
    rw [List.inj_on_of_nodup_map h.nodup hb ha hkey]

theorem find_none_of_lt {values : List α} (h : ∀ a ∈ values, k < key a) : find key k values = none :=
  List.find?_eq_none.mpr fun a ha => by simpa using ne_of_gt (h a ha)

variable (k fresh change) in
/-- Changing one key changes the value of this key only. -/
theorem Sorted.find_upsert (h : Sorted key values) (hfresh : key fresh = k)
    (hchange : ∀ a, key a = k → key (change a) = k) (k' : κ) :
    find key k' (upsert key k fresh change values) =
      if k' = k then some (((find key k values).map change).getD fresh) else find key k' values := by
  induction values with
  | nil =>
    by_cases hk : k' = k
    · simp [find, upsert, hk, hfresh]
    · simp [find, upsert, hk, hfresh, Ne.symm hk]
  | cons a rest ih =>
    obtain ⟨hless, hrest⟩ := List.pairwise_cons.mp h
    by_cases ha : key a = k
    · -- the value is there
      rw [upsert, if_pos ha]
      by_cases hk : k' = k
      · simp [find, hk, hchange a ha, ha]
      · simp [find, hk, hchange a ha, ha, Ne.symm hk]
    · rw [upsert, if_neg ha]
      by_cases hlt : k < key a
      · have hnone : find key k (a :: rest) = none :=
          find_none_of_lt fun b hb => by
            rcases List.mem_cons.mp hb with rfl | hb
            · exact hlt
            · exact lt_trans hlt (hless b hb)
        rw [if_pos hlt, hnone]
        by_cases hk : k' = k
        · simp [find, hk, hfresh]
        · simp [find, hk, hfresh, Ne.symm hk]
      · rw [if_neg hlt]
        have hih := ih hrest
        by_cases hk' : key a = k'
        · have hne : k' ≠ k := hk' ▸ ha
          simp [find, hk', hne]
        · simp only [find, List.find?_cons, hk', ha, decide_false] at hih ⊢
          exact hih

theorem mem_upsert {a : α} (h : a ∈ upsert key k fresh change values) :
    a = fresh ∨ a ∈ values ∨ ∃ b ∈ values, key b = k ∧ a = change b := by
  induction values with
  | nil => exact Or.inl (List.mem_singleton.mp h)
  | cons b rest ih =>
    unfold upsert at h
    split at h
    · rename_i hb
      rcases List.mem_cons.mp h with rfl | h
      · exact Or.inr (Or.inr ⟨b, List.mem_cons_self .., hb, rfl⟩)
      · exact Or.inr (Or.inl (List.mem_cons_of_mem b h))
    · split at h
      · rcases List.mem_cons.mp h with rfl | h
        · exact Or.inl rfl
        · exact Or.inr (Or.inl h)
      · rcases List.mem_cons.mp h with rfl | h
        · exact Or.inr (Or.inl (List.mem_cons_self ..))
        · rcases ih h with h | h | ⟨c, hc, hkey, h⟩
          · exact Or.inl h
          · exact Or.inr (Or.inl (List.mem_cons_of_mem b h))
          · exact Or.inr (Or.inr ⟨c, List.mem_cons_of_mem b hc, hkey, h⟩)

theorem Sorted.upsert (h : Sorted key values) (hfresh : key fresh = k)
    (hchange : ∀ a, key a = k → key (change a) = k) :
    Sorted key (upsert key k fresh change values) := by
  induction values with
  | nil => exact List.pairwise_singleton _ _
  | cons a rest ih =>
    obtain ⟨hless, hrest⟩ := List.pairwise_cons.mp h
    unfold SortedMap.upsert
    split
    · rename_i ha
      exact List.pairwise_cons.mpr ⟨fun b hb => by rw [hchange a ha, ← ha]; exact hless b hb, hrest⟩
    · rename_i ha
      split
      · rename_i hlt
        refine List.pairwise_cons.mpr ⟨fun b hb => ?_, h⟩
        rw [hfresh]
        rcases List.mem_cons.mp hb with rfl | hb
        · exact hlt
        · exact lt_trans hlt (hless b hb)
      · rename_i hlt
        have hafter : key a < k := lt_of_le_of_ne (not_lt.mp hlt) ha
        refine List.pairwise_cons.mpr ⟨fun b hb => ?_, ih hrest⟩
        rcases mem_upsert hb with rfl | hb | ⟨c, _, hc, rfl⟩
        · rw [hfresh]; exact hafter
        · exact hless b hb
        · rw [hchange c hc]; exact hafter

/-- A value takes the place of the one under its key. -/
theorem Sorted.mem_insert (h : Sorted key values) {a b : α} :
    b ∈ SortedMap.upsert key (key a) a (fun _ => a) values ↔ b = a ∨ (b ∈ values ∧ key b ≠ key a) := by
  have hsorted : Sorted key (SortedMap.upsert key (key a) a (fun _ => a) values) :=
    h.upsert rfl fun _ _ => rfl
  have hfind := h.find_upsert (key a) a (fun _ => a) rfl (fun _ _ => rfl) (key b)
  constructor
  · intro hb
    rw [hsorted.find_key hb] at hfind
    by_cases hk : key b = key a
    · rw [if_pos hk] at hfind
      left
      cases hold : find key (key a) values <;> simp_all
    · rw [if_neg hk] at hfind
      exact Or.inr ⟨(find_mem hfind.symm).1, hk⟩
  · rintro (rfl | ⟨hb, hk⟩)
    · rw [if_pos rfl] at hfind
      have hself : (((find key (key b) values).map fun _ => b).getD b) = b := by
        cases find key (key b) values <;> rfl
      rw [hself] at hfind
      exact (find_mem hfind).1
    · rw [if_neg hk, h.find_key hb] at hfind
      exact (find_mem hfind).1

section
variable {a b : α}

theorem Sorted.insert (h : Sorted key values) : Sorted key (SortedMap.insert key a values) :=
  h.upsert rfl fun _ _ => rfl

theorem Sorted.insert_iff (h : Sorted key values) :
    b ∈ SortedMap.insert key a values ↔ b = a ∨ (b ∈ values ∧ key b ≠ key a) := h.mem_insert

/-- A value after all others comes at the end. -/
theorem insert_last (h : ∀ b ∈ values, key b < key a) : SortedMap.insert key a values = values ++ [a] := by
  unfold SortedMap.insert
  induction values with
  | nil => rfl
  | cons b rest ih =>
    obtain ⟨hb, hrest⟩ := List.forall_mem_cons.mp h
    rw [upsert, if_neg (ne_of_lt hb), if_neg (lt_asymm hb), ih hrest, List.cons_append]

theorem mem_of_mem_insert (h : b ∈ SortedMap.insert key a values) : b = a ∨ b ∈ values := by
  rcases mem_upsert h with h | h | ⟨_, _, _, h⟩
  · exact Or.inl h
  · exact Or.inr h
  · exact Or.inl h

theorem mem_of_mem_inserts {added : List α} (h : b ∈ added.foldl (fun map a => SortedMap.insert key a map) values) :
    b ∈ added ∨ b ∈ values := by
  induction added generalizing values with
  | nil => exact Or.inr h
  | cons a rest ih =>
    rcases ih h with h | h
    · exact Or.inl (List.mem_cons_of_mem a h)
    · rcases mem_of_mem_insert h with rfl | h
      · exact Or.inl (List.mem_cons_self ..)
      · exact Or.inr h

/-- Whatever stood under a key is still there, or was replaced by a value of this key. -/
theorem Sorted.key_mem_insert (h : Sorted key values) (hk : ∃ c ∈ values, key c = k) :
    ∃ c ∈ SortedMap.insert key a values, key c = k := by
  obtain ⟨c, hc, rfl⟩ := hk
  by_cases heq : key c = key a
  · exact ⟨a, h.insert_iff.mpr (Or.inl rfl), heq.symm⟩
  · exact ⟨c, h.insert_iff.mpr (Or.inr ⟨hc, heq⟩), rfl⟩

theorem find_isSome : (find key k values).isSome = true ↔ ∃ c ∈ values, key c = k := by
  simp [find]

end

theorem Sorted.length_upsert (h : Sorted key values) :
    (SortedMap.upsert key k fresh change values).length =
      if (find key k values).isSome then values.length else values.length + 1 := by
  induction values with
  | nil => rfl
  | cons a rest ih =>
    obtain ⟨hless, hrest⟩ := List.pairwise_cons.mp h
    by_cases ha : key a = k
    · simp [SortedMap.upsert, find, ha]
    · by_cases hlt : k < key a
      · have hnone : find key k (a :: rest) = none :=
          find_none_of_lt fun b hb => by
            rcases List.mem_cons.mp hb with rfl | hb
            · exact hlt
            · exact lt_trans hlt (hless b hb)
        rw [SortedMap.upsert, if_neg ha, if_pos hlt, hnone]
        rfl
      · have hskip : find key k (a :: rest) = find key k rest := by simp [find, ha]
        rw [SortedMap.upsert, if_neg ha, if_neg hlt, hskip, List.length_cons, ih hrest]
        split <;> rfl

/-- One value more at most, and none more under a key that is there. -/
theorem Sorted.length_insert_le (h : Sorted key values) {a : α} {n : Nat}
    (hroom : values.length < n ∨ (find key (key a) values).isSome) :
    (SortedMap.insert key a values).length ≤ max n values.length := by
  have hlength : (SortedMap.insert key a values).length =
      if (find key (key a) values).isSome then values.length else values.length + 1 := h.length_upsert
  rw [hlength]
  split
  · exact le_max_right n values.length
  · rename_i hfind
    have hlt := hroom.resolve_right hfind
    exact le_trans hlt (le_max_left n values.length)

end AmlReal.Foundations.SortedMap
