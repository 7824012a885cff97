import Mathlib.Data.List.Dedup
import Mathlib.Data.List.Infix

/-! # Tables that are read by their latest row

A table only grows. Every row has a key and a version, and a reader takes for
each key the row of greatest version, the one inserted last among equals.
`latest` computes that reading one insert at a time, so what a further insert
changes is the last step of a fold. The frame rules at the end say when an
insert is invisible to a reader that looks at some rows only. -/

namespace AmlReal.Foundations.LatestRows

section
variable {α κ : Type} [DecidableEq κ] (key : α → κ) (version : α → Nat)

/-- One insert into the reading: the row replaces the row of its key, unless
that row has a greater version. -/
def upsert (seen : List α) (row : α) : List α :=
  if seen.any (fun old => key old = key row ∧ version row < version old) then seen
  else seen.filter (fun old => key old ≠ key row) ++ [row]

/-- The latest row of every key, after the inserts of `rows` in their order. -/
def latest (rows : List α) : List α := rows.foldl (upsert key version) []

@[simp] theorem latest_nil : latest key version [] = [] := rfl

theorem latest_append (rows more : List α) :
    latest key version (rows ++ more) = more.foldl (upsert key version) (latest key version rows) :=
  List.foldl_append ..

theorem latest_concat (rows : List α) (row : α) :
    latest key version (rows ++ [row]) = upsert key version (latest key version rows) row := by
  rw [latest_append]; rfl

variable {key version}

theorem mem_upsert {seen : List α} {row r : α} (h : r ∈ upsert key version seen row) :
    r ∈ seen ∨ r = row := by
  unfold upsert at h
  split at h
  · exact Or.inl h
  · rcases List.mem_append.mp h with h | h
    · exact Or.inl (List.mem_of_mem_filter h)
    · exact Or.inr (List.mem_singleton.mp h)

/-- Rows of another key are untouched by an insert. -/
theorem mem_upsert_of_ne {seen : List α} {row r : α} (hk : key r ≠ key row) :
    r ∈ upsert key version seen row ↔ r ∈ seen := by
  unfold upsert
  split
  · rfl
  · simp only [List.mem_append, List.mem_filter, List.mem_singleton, decide_eq_true_eq]
    exact ⟨fun h => h.elim And.left (fun he => absurd (congrArg key he) hk), fun h => Or.inl ⟨h, hk⟩⟩

theorem mem_of_mem_latest {rows : List α} {r : α} (h : r ∈ latest key version rows) : r ∈ rows := by
  induction rows using List.reverseRecOn with
  | nil => exact h
  | append_singleton rows row ih =>
    rw [latest_concat] at h
    rcases mem_upsert h with h | rfl
    · exact List.mem_append_left _ (ih h)
    · simp

/-- What is latest after more rows was latest before or is one of them. -/
theorem mem_latest_append {rows more : List α} {r : α} (h : r ∈ latest key version (rows ++ more)) :
    r ∈ latest key version rows ∨ r ∈ more := by
  induction more using List.reverseRecOn generalizing r with
  | nil =>
    rw [List.append_nil] at h
    exact Or.inl h
  | append_singleton more row ih =>
    rw [← List.append_assoc, latest_concat] at h
    rcases mem_upsert h with h | rfl
    · exact (ih h).imp_right (List.mem_append_left _)
    · exact Or.inr (by simp)

theorem latest_keys_nodup (rows : List α) : ((latest key version rows).map key).Nodup := by
  induction rows using List.reverseRecOn with
  | nil => exact List.nodup_nil
  | append_singleton rows row ih =>
    rw [latest_concat]
    unfold upsert
    split
    · exact ih
    · rw [List.map_append, List.nodup_append]
      refine ⟨ih.sublist ((List.filter_sublist).map key), by simp, ?_⟩
      intro k hk k' hk' he
      obtain ⟨old, hold, rfl⟩ := List.mem_map.mp hk
      have hne := (List.mem_filter.mp hold).2
      simp only [List.map_cons, List.map_nil, List.mem_singleton] at hk'
      exact absurd (he.trans hk') (by simpa using hne)

theorem latest_nodup (rows : List α) : (latest key version rows).Nodup :=
  List.Nodup.of_map key (latest_keys_nodup rows)

theorem latest_unique {rows : List α} {a b : α} (ha : a ∈ latest key version rows)
    (hb : b ∈ latest key version rows) (hk : key a = key b) : a = b :=
  List.inj_on_of_nodup_map (latest_keys_nodup rows) ha hb hk

/-- Every row is represented by a row of its key and at least its version. -/
theorem exists_mem_latest {rows : List α} {r : α} (h : r ∈ rows) :
    ∃ m ∈ latest key version rows, key m = key r ∧ version r ≤ version m := by
  induction rows using List.reverseRecOn generalizing r with
  | nil => cases h
  | append_singleton rows row ih =>
    rw [latest_concat]
    unfold upsert
    split
    · rename_i hgreater
      rcases List.mem_append.mp h with h | h
      · exact ih h
      · obtain ⟨old, hold, hcmp⟩ := List.any_eq_true.mp hgreater
        rw [List.mem_singleton.mp h]
        simp only [decide_eq_true_eq] at hcmp
        exact ⟨old, hold, hcmp.1, Nat.le_of_lt hcmp.2⟩
    · rename_i hgreater
      -- no row of the key has a greater version, so the new row represents them all
      have hle : ∀ old ∈ latest key version rows, key old = key row →
          version old ≤ version row := by
        intro old hold hk
        by_contra hlt
        exact hgreater (List.any_eq_true.mpr ⟨old, hold, by simpa using ⟨hk, by omega⟩⟩)
      by_cases hk : key r = key row
      · refine ⟨row, by simp, hk.symm, ?_⟩
        rcases List.mem_append.mp h with h | h
        · obtain ⟨m, hm, hkm, hv⟩ := ih h
          exact Nat.le_trans hv (hle m hm (hkm.trans hk))
        · rw [List.mem_singleton.mp h]
      · have hmem : r ∈ rows := by
          rcases List.mem_append.mp h with h | h
          · exact h
          · exact absurd (congrArg key (List.mem_singleton.mp h)) hk
        obtain ⟨m, hm, hkm, hv⟩ := ih hmem
        exact ⟨m, by simp [hm, hkm, hk], hkm, hv⟩

theorem latest_greatest {rows : List α} {m r : α} (hm : m ∈ latest key version rows)
    (hr : r ∈ rows) (hk : key r = key m) : version r ≤ version m := by
  obtain ⟨m', hm', hk', hv⟩ : ∃ m' ∈ latest key version rows,
      key m' = key r ∧ version r ≤ version m' := exists_mem_latest hr
  rw [latest_unique hm hm' (hk'.trans hk).symm]
  exact hv

/-- A row that no row of its key exceeds replaces them. -/
theorem mem_latest_concat {rows : List α} {row r : α}
    (h : ∀ old ∈ rows, key old = key row → version old ≤ version row) :
    r ∈ latest key version (rows ++ [row]) ↔
      r = row ∨ (r ∈ latest key version rows ∧ key r ≠ key row) := by
  rw [latest_concat, upsert, if_neg]
  · simp only [List.mem_append, List.mem_filter, List.mem_singleton, decide_eq_true_eq]
    exact or_comm
  · intro hany
    obtain ⟨old, hold, hk⟩ := List.any_eq_true.mp hany
    simp only [decide_eq_true_eq] at hk
    exact absurd (h old (mem_of_mem_latest hold) hk.1) (Nat.not_le_of_lt hk.2)

/-- The rows that are read where the last insert of a key wins. -/
abbrev newest (key : α → κ) (rows : List α) : List α := latest key (fun _ => 0) rows

theorem mem_newest_concat {rows : List α} {row r : α} :
    r ∈ newest key (rows ++ [row]) ↔ r = row ∨ (r ∈ newest key rows ∧ key r ≠ key row) :=
  mem_latest_concat fun _ _ _ => Nat.le_refl 0

/-- The row of a key that a query finds is its newest. -/
theorem find_newest {β : Type} {rows : List α} {k : κ} {field : α → β} {value : β} :
    ((newest key rows).find? fun row => key row = k).map field = some value ↔
      ∃ row ∈ newest key rows, key row = k ∧ field row = value := by
  constructor
  · intro h
    obtain ⟨row, hfind, hvalue⟩ := Option.map_eq_some_iff.mp h
    exact ⟨row, List.mem_of_find?_eq_some hfind, by simpa using List.find?_some hfind, hvalue⟩
  · rintro ⟨row, hrow, hkey, rfl⟩
    cases hfind : (newest key rows).find? fun row => key row = k with
    | none => simpa [hkey] using List.find?_eq_none.mp hfind row hrow
    | some other =>
      have hother : key other = k := by simpa using List.find?_some hfind
      obtain rfl := latest_unique (List.mem_of_find?_eq_some hfind) hrow (hother.trans hkey.symm)
      rfl

/-- A batch with one row for each of its keys replaces exactly the rows of these keys. -/
theorem mem_newest_append {rows batch : List α} {r : α} (h : (batch.map key).Nodup) :
    r ∈ newest key (rows ++ batch) ↔ r ∈ batch ∨ (r ∈ newest key rows ∧ key r ∉ batch.map key) := by
  induction batch using List.reverseRecOn with
  | nil => simp
  | append_singleton batch row ih =>
    rw [List.map_append, List.nodup_append] at h
    obtain ⟨hbatch, _, hrow⟩ := h
    have hne : ∀ r ∈ batch, key r ≠ key row := fun r hr =>
      hrow _ (List.mem_map_of_mem hr) _ (by simp)
    rw [← List.append_assoc, mem_newest_concat, ih hbatch, List.mem_append, List.map_append,
      List.mem_append, not_or, List.mem_singleton]
    constructor
    · rintro (rfl | ⟨hr | ⟨hr, hkeys⟩, hk⟩)
      · exact Or.inl (Or.inr rfl)
      · exact Or.inl (Or.inl hr)
      · exact Or.inr ⟨hr, hkeys, by simpa using hk⟩
    · rintro ((hr | rfl) | ⟨hr, hkeys, hk⟩)
      · exact Or.inr ⟨Or.inl hr, hne r hr⟩
      · exact Or.inl rfl
      · exact Or.inr ⟨Or.inr ⟨hr, hkeys⟩, by simpa using hk⟩

/-- A row whose version exceeds every other row of its key is read. -/
theorem mem_latest_of_greatest {rows : List α} {r : α} (hr : r ∈ rows)
    (hmax : ∀ o ∈ rows, key o = key r → o ≠ r → version o < version r) :
    r ∈ latest key version rows := by
  obtain ⟨m, hm, hk, hv⟩ : ∃ m ∈ latest key version rows,
      key m = key r ∧ version r ≤ version m := exists_mem_latest hr
  by_cases he : m = r
  · exact he ▸ hm
  · have := hmax m (mem_of_mem_latest hm) hk he
    omega

/-! ## Frame rules -/

/-- Inserts of other keys leave the reading of the rows that satisfy `p` as a
list: nothing is added, removed or moved. -/
theorem foldl_upsert_filter {p : α → Bool} {more : List α}
    (hp : ∀ row ∈ more, p row = false) (hk : ∀ row ∈ more, ∀ r, p r = true → key r ≠ key row)
    (seen : List α) : (more.foldl (upsert key version) seen).filter p = seen.filter p := by
  induction more generalizing seen with
  | nil => rfl
  | cons row rest ih =>
    rw [List.foldl_cons, ih (fun r h => hp r (by simp [h])) (fun r h => hk r (by simp [h]))]
    unfold upsert
    split
    · rfl
    · rw [List.filter_append, List.filter_filter]
      simp only [List.filter_cons, hp row (by simp), Bool.false_eq_true, if_false,
        List.filter_nil, List.append_nil]
      apply List.filter_congr
      intro r _
      cases hr : p r with
      | false => rfl
      | true => simp [hk row (by simp) r hr]

theorem latest_append_filter {p : α → Bool} {rows more : List α}
    (hp : ∀ row ∈ more, p row = false) (hk : ∀ row ∈ more, ∀ r, p r = true → key r ≠ key row) :
    (latest key version (rows ++ more)).filter p = (latest key version rows).filter p := by
  rw [latest_append]; exact foldl_upsert_filter hp hk _

theorem upsert_filter_key (p : κ → Bool) (seen : List α) (row : α) :
    (upsert key version seen row).filter (fun r => p (key r)) =
      if p (key row) then upsert key version (seen.filter fun r => p (key r)) row
      else seen.filter fun r => p (key r) := by
  by_cases hp : p (key row) = true
  · have hany : (seen.filter fun r => p (key r)).any
        (fun old => key old = key row ∧ version row < version old) =
        seen.any (fun old => key old = key row ∧ version row < version old) := by
      rw [List.any_filter]
      congr 1
      funext old
      by_cases hk : key old = key row
      · simp [hk, hp]
      · simp [hk]
    unfold upsert
    rw [if_pos hp, hany]
    split
    · rfl
    · simp [List.filter_append, hp, List.filter_filter, Bool.and_comm]
  · rw [if_neg hp]
    unfold upsert
    split
    · rfl
    · simp only [List.filter_append, List.filter_filter, List.filter_cons, hp, List.filter_nil,
        List.append_nil, Bool.false_eq_true, if_false]
      apply List.filter_congr
      intro r _
      by_cases hr : p (key r) = true
      · have hne : key r ≠ key row := fun he => hp (he ▸ hr)
        simp [hr, hne]
      · simp [hr]

/-- The rows of some keys are read as if there were no others. -/
theorem latest_filter_key (p : κ → Bool) (rows : List α) :
    (latest key version rows).filter (fun r => p (key r)) =
      latest key version (rows.filter fun r => p (key r)) := by
  induction rows using List.reverseRecOn with
  | nil => rfl
  | append_singleton rows row ih =>
    rw [latest_concat, upsert_filter_key, ih, List.filter_append]
    by_cases hp : p (key row) = true
    · simp [hp, latest_concat]
    · simp [hp]

end

/-! ## `LIMIT 1 BY` -/

section
variable {α κ ν : Type} [DecidableEq κ] (key : α → κ)

/-- The first row of every key. -/
def limitOneBy : List α → List α
  | [] => []
  | row :: rest => row :: (limitOneBy rest).filter fun r => key r ≠ key row

variable {key}

theorem limitOneBy_subset (rows : List α) : limitOneBy key rows ⊆ rows := by
  induction rows with
  | nil => exact List.Subset.refl _
  | cons row rest ih =>
    intro r hr
    rcases List.mem_cons.mp hr with rfl | hr
    · exact List.mem_cons_self
    · exact List.mem_cons_of_mem _ (ih (List.mem_of_mem_filter hr))

theorem exists_mem_limitOneBy {rows : List α} {o : α} (h : o ∈ rows) :
    ∃ r ∈ limitOneBy key rows, key r = key o := by
  induction rows with
  | nil => cases h
  | cons row rest ih =>
    by_cases hk : key o = key row
    · exact ⟨row, List.mem_cons_self, hk.symm⟩
    · rcases List.mem_cons.mp h with rfl | h
      · exact absurd rfl hk
      · obtain ⟨r, hr, hkey⟩ := ih h
        exact ⟨r, List.mem_cons_of_mem _ (List.mem_filter.mpr ⟨hr, by simpa [hkey] using hk⟩), hkey⟩

/-- Of rows in descending order the first of a key is its greatest. -/
theorem limitOneBy_greatest [LE ν] (measure : α → ν) (hrefl : ∀ a, measure a ≤ measure a)
    {rows : List α} (hsorted : rows.Pairwise fun a b => measure b ≤ measure a) {r o : α}
    (hr : r ∈ limitOneBy key rows) (ho : o ∈ rows) (hk : key o = key r) :
    measure o ≤ measure r := by
  induction rows with
  | nil => cases ho
  | cons row rest ih =>
    obtain ⟨hhead, hrest⟩ := List.pairwise_cons.mp hsorted
    rcases List.mem_cons.mp hr with rfl | hr
    · rcases List.mem_cons.mp ho with rfl | ho
      · exact hrefl _
      · exact hhead o ho
    · obtain ⟨hr, hne⟩ := List.mem_filter.mp hr
      rcases List.mem_cons.mp ho with rfl | ho
      · exact absurd hk.symm (by simpa using hne)
      · exact ih hrest hr ho

end

end AmlReal.Foundations.LatestRows
