import Mathlib.Data.List.Nodup
import Mathlib.Data.List.Perm.Basic
import AmlReal.Foundations.Checks

/-! # Maps as lists of entries

A map by key is the list of its entries, inserted only under keys that are not
there yet. Only the entries count, not their order. -/

namespace AmlReal.Foundations.EntryList
open AmlReal.Foundations.Checks

/-- The keys of the entries are distinct. -/
def Keyed {κ α : Type} (entries : List (κ × α)) : Prop := (entries.map Prod.fst).Nodup

namespace Keyed
variable {κ α : Type} {entries other : List (κ × α)}

theorem nil : Keyed ([] : List (κ × α)) := List.nodup_nil

theorem unique (h : Keyed entries) {k : κ} {v w : α} (hv : (k, v) ∈ entries)
    (hw : (k, w) ∈ entries) : v = w :=
  congrArg Prod.snd (List.inj_on_of_nodup_map h hv hw rfl)

theorem perm (h : Keyed entries) (hp : entries.Perm other) : Keyed other :=
  (hp.map Prod.fst).nodup_iff.mp h

end Keyed

section
variable {κ α : Type} [DecidableEq κ]

/-- `HashMap::remove` -/
def remove (entries : List (κ × α)) (key : κ) : List (κ × α) := entries.filter fun e => e.1 ≠ key

theorem mem_of_lookup {entries : List (κ × α)} {k : κ} {v : α} (h : entries.lookup k = some v) :
    (k, v) ∈ entries := by
  obtain ⟨_, _, rfl, _⟩ := List.lookup_eq_some_iff.mp h
  simp

theorem lookup_isNone {entries : List (κ × α)} {k : κ} :
    (entries.lookup k).isNone ↔ ∀ v, (k, v) ∉ entries := by
  rw [Option.isNone_iff_eq_none, List.lookup_eq_none_iff]
  constructor
  · intro h v hv; simpa using h _ hv
  · rintro h ⟨k', v⟩ hp
    by_cases hk : k = k'
    · subst hk; exact absurd hp (h v)
    · simpa using hk

namespace Keyed

variable {entries other : List (κ × α)}

theorem lookup_eq_some (h : Keyed entries) {k : κ} {v : α} :
    entries.lookup k = some v ↔ (k, v) ∈ entries := by
  constructor
  · exact mem_of_lookup
  · intro hv
    cases hl : entries.lookup k with
    | none => exact absurd hv (lookup_isNone.mp (by rw [hl]; rfl) v)
    | some w => rw [h.unique hv (mem_of_lookup hl)]

theorem cons (h : Keyed entries) {k : κ} {v : α} (hnone : (entries.lookup k).isNone) :
    Keyed ((k, v) :: entries) := by
  refine List.nodup_cons.mpr ⟨fun hk => ?_, h⟩
  obtain ⟨⟨_, w⟩, hw, rfl⟩ := List.mem_map.mp hk
  exact lookup_isNone.mp hnone w hw

theorem lookup_perm (h : Keyed entries) (hp : entries.Perm other) (k : κ) :
    entries.lookup k = other.lookup k :=
  Option.ext fun v => by rw [h.lookup_eq_some, (h.perm hp).lookup_eq_some, hp.mem_iff]

theorem remove (h : Keyed entries) (k : κ) : Keyed (remove entries k) :=
  h.sublist ((List.filter_sublist).map Prod.fst)

end Keyed

theorem lookup_isNone_perm {entries other : List (κ × α)} (hp : entries.Perm other) (k : κ) :
    (entries.lookup k).isNone ↔ (other.lookup k).isNone := by
  rw [lookup_isNone, lookup_isNone]
  exact forall_congr' fun v => not_congr hp.mem_iff

theorem mem_remove {entries : List (κ × α)} {key k : κ} {v : α} :
    (k, v) ∈ remove entries key ↔ (k, v) ∈ entries ∧ k ≠ key := by
  simp [remove]

/-- Taking an entry out leaves the others. -/
theorem perm_remove {entries : List (κ × α)} (h : Keyed entries) {k : κ} {v : α}
    (hv : entries.lookup k = some v) : entries.Perm ((k, v) :: remove entries k) := by
  induction entries with
  | nil => cases hv
  | cons e rest ih =>
    obtain ⟨hfresh, hrest⟩ := List.nodup_cons.mp h
    rw [List.lookup_cons] at hv
    by_cases hk : k = e.1
    · subst hk
      rw [beq_self_eq_true] at hv
      obtain rfl := Option.some.inj hv
      have hall : ∀ e' ∈ rest, e'.1 ≠ e.1 := fun e' he' heq =>
        hfresh (heq ▸ List.mem_map_of_mem he')
      have hremove : remove (e :: rest) e.1 = rest := by
        simp only [remove, List.filter_cons, ne_eq, not_true_eq_false, decide_false]
        exact List.filter_eq_self.mpr fun e' he' => by simpa using hall e' he'
      rw [hremove]
    · rw [show (k == e.1) = false from beq_eq_false_iff_ne.mpr hk] at hv
      have hremove : remove (e :: rest) k = e :: remove rest k := by
        simp [remove, Ne.symm hk]
      rw [hremove]
      exact ((ih hrest hv).cons e).trans (List.Perm.swap _ _ _)

end

/-! ## Putting a value under a key -/

section
variable {κ α : Type} [DecidableEq κ]

/-- `HashMap::get` -/
def get (entries : List (κ × α)) (k : κ) : Option α := entries.lookup k

/-- `HashMap::insert` -/
def put : List (κ × α) → κ → α → List (κ × α)
  | [], k, v => [(k, v)]
  | e :: rest, k, v => if e.1 = k then (k, v) :: rest else e :: put rest k v

theorem lookup_cons_ite (e : κ × α) (rest : List (κ × α)) (k : κ) :
    (e :: rest).lookup k = if k = e.1 then some e.2 else rest.lookup k := by
  rw [List.lookup_cons]
  by_cases hk : k = e.1
  · rw [if_pos hk, beq_iff_eq.mpr hk]
  · rw [if_neg hk, beq_eq_false_iff_ne.mpr hk]

theorem get_put (entries : List (κ × α)) (k : κ) (v : α) (k' : κ) :
    get (put entries k v) k' = if k' = k then some v else get entries k' := by
  unfold get
  induction entries with
  | nil => exact lookup_cons_ite (k, v) [] k'
  | cons e rest ih =>
    rw [put, lookup_cons_ite e rest]
    by_cases he : e.1 = k
    · rw [if_pos he, lookup_cons_ite, he]
      by_cases hk : k' = k
      · rw [if_pos hk, if_pos hk]
      · rw [if_neg hk, if_neg hk, if_neg hk]
    · rw [if_neg he, lookup_cons_ite, ih]
      by_cases hk : k' = k
      · have hne : k' ≠ e.1 := fun h => he (h ▸ hk)
        rw [if_neg hne, if_pos hk, if_pos hk]
      · rw [if_neg hk, if_neg hk]

theorem fst_put (entries : List (κ × α)) (k : κ) (v : α) :
    ∀ e ∈ put entries k v, e.1 = k ∨ e ∈ entries := by
  induction entries with
  | nil =>
    intro e he
    rw [List.mem_singleton.mp he]
    exact Or.inl rfl
  | cons e' rest ih =>
    intro e he
    rw [put] at he
    split at he
    · rcases List.mem_cons.mp he with rfl | he
      · exact Or.inl rfl
      · exact Or.inr (List.mem_cons_of_mem _ he)
    · rcases List.mem_cons.mp he with rfl | he
      · exact Or.inr (List.mem_cons_self ..)
      · exact (ih e he).imp_right (List.mem_cons_of_mem _)

theorem Keyed.put {entries : List (κ × α)} (h : Keyed entries) (k : κ) (v : α) :
    Keyed (put entries k v) := by
  induction entries with
  | nil => exact List.nodup_singleton _
  | cons e rest ih =>
    obtain ⟨hfresh, hrest⟩ := List.nodup_cons.mp h
    rw [EntryList.put]
    by_cases he : e.1 = k
    · rw [if_pos he]
      exact List.nodup_cons.mpr ⟨he ▸ hfresh, hrest⟩
    · rw [if_neg he]
      refine List.nodup_cons.mpr ⟨fun hmem => ?_, ih hrest⟩
      obtain ⟨e', he', heq⟩ := List.mem_map.mp hmem
      rcases fst_put rest k v e' he' with hk | hold
      · exact he (heq ▸ hk)
      · exact hfresh (List.mem_map.mpr ⟨e', hold, heq⟩)

/-- `Iterator::collect` of keyed values: a later value replaces an earlier one. -/
def collect (key : α → κ) (xs : List α) : List (κ × α) :=
  xs.foldl (fun entries x => put entries (key x) x) []

theorem put_fresh {entries : List (κ × α)} {k : κ} (h : k ∉ entries.map Prod.fst) (v : α) :
    put entries k v = entries ++ [(k, v)] := by
  induction entries with
  | nil => rfl
  | cons e rest ih =>
    obtain ⟨hne, hrest⟩ := List.ne_and_not_mem_of_not_mem_cons h
    rw [put, if_neg (Ne.symm hne), ih hrest]
    rfl

theorem length_put_known {entries : List (κ × α)} {k : κ} (h : k ∈ entries.map Prod.fst) (v : α) :
    (put entries k v).length = entries.length := by
  induction entries with
  | nil => cases h
  | cons e rest ih =>
    rw [put]
    by_cases he : e.1 = k
    · rw [if_pos he]
      rfl
    · rw [if_neg he, List.length_cons, List.length_cons,
        ih ((List.mem_cons.mp h).resolve_left (Ne.symm he))]

theorem length_put_le (entries : List (κ × α)) (k : κ) (v : α) :
    (put entries k v).length ≤ entries.length + 1 := by
  by_cases h : k ∈ entries.map Prod.fst
  · rw [length_put_known h]
    omega
  · rw [put_fresh h]
    simp

theorem length_foldl_put_le (key : α → κ) (xs : List α) (entries : List (κ × α)) :
    (xs.foldl (fun entries x => put entries (key x) x) entries).length ≤
      entries.length + xs.length := by
  induction xs generalizing entries with
  | nil => simp
  | cons x rest ih =>
    have hput := length_put_le entries (key x) x
    have hrest := ih (put entries (key x) x)
    rw [List.foldl_cons, List.length_cons]
    omega

/-- Nothing is replaced where no entry gets lost. -/
theorem foldl_put_of_length (key : α → κ) (xs : List α) {entries : List (κ × α)}
    (hkeyed : Keyed entries)
    (h : (xs.foldl (fun entries x => put entries (key x) x) entries).length =
      entries.length + xs.length) :
    xs.foldl (fun entries x => put entries (key x) x) entries =
        entries ++ xs.map (fun x => (key x, x)) ∧
      Keyed (entries ++ xs.map fun x => (key x, x)) := by
  induction xs generalizing entries with
  | nil => simpa using hkeyed
  | cons x rest ih =>
    rw [List.foldl_cons, List.length_cons] at h
    have hfresh : key x ∉ entries.map Prod.fst := by
      intro hknown
      have hle := length_foldl_put_le key rest (put entries (key x) x)
      rw [length_put_known hknown] at hle
      omega
    have hput := put_fresh hfresh x
    have hnext : Keyed (put entries (key x) x) := hkeyed.put (key x) x
    obtain ⟨heq, hall⟩ := ih hnext (by rw [h, hput, List.length_append, List.length_singleton]; omega)
    rw [hput, List.append_assoc] at heq hall
    rw [List.foldl_cons, hput]
    exact ⟨heq, hall⟩

theorem foldl_put_fresh (key : α → κ) (xs : List α) (entries : List (κ × α))
    (h : Keyed (entries ++ xs.map fun x => (key x, x))) :
    xs.foldl (fun entries x => put entries (key x) x) entries =
      entries ++ xs.map fun x => (key x, x) := by
  induction xs generalizing entries with
  | nil => simp
  | cons x rest ih =>
    have hfresh : key x ∉ entries.map Prod.fst := by
      intro hknown
      rw [Keyed, List.map_append] at h
      exact List.disjoint_of_nodup_append h hknown (List.mem_map.mpr ⟨(key x, x), by simp, rfl⟩)
    rw [List.map_cons, List.append_cons] at h
    rw [List.foldl_cons, put_fresh hfresh, ih _ h, List.append_assoc]
    rfl

/-- A map has as many entries as there were values just where their keys are
distinct, and then its entries are those values. -/
theorem collect_of_length {key : α → κ} {xs : List α} (h : (collect key xs).length = xs.length) :
    collect key xs = xs.map (fun x => (key x, x)) ∧ Keyed (xs.map fun x => (key x, x)) := by
  have hall := foldl_put_of_length key xs Keyed.nil (by simpa [collect] using h)
  simpa [collect] using hall

theorem collect_of_keyed {key : α → κ} {xs : List α} (h : Keyed (xs.map fun x => (key x, x))) :
    collect key xs = xs.map fun x => (key x, x) := by
  have hall := foldl_put_fresh key xs [] (by simpa using h)
  simpa [collect] using hall

/-- The order of distinct values is the order of the entries only. -/
theorem collect_perm {key : α → κ} {xs ys : List α} (hp : xs.Perm ys)
    (h : (collect key xs).length = xs.length) :
    (collect key ys).length = ys.length ∧ (collect key xs).Perm (collect key ys) ∧
      Keyed (collect key xs) := by
  obtain ⟨heq, hkeyed⟩ := collect_of_length h
  have hys := collect_of_keyed (hkeyed.perm (hp.map fun x => (key x, x)))
  rw [heq, hys]
  exact ⟨List.length_map _, hp.map _, hkeyed⟩

end

/-! ## Inserting under a computed key -/

section
variable {κ α ε : Type} [DecidableEq κ] (key : α → Except ε κ) (duplicate : ε)

/-- `HashMap::insert` that has to find the key free. -/
def insertNew (map : List (κ × α)) (a : α) : Except ε (List (κ × α)) := do
  let k ← key a
  ensure (map.lookup k).isNone duplicate
  pure ((k, a) :: map)

variable {key duplicate}

theorem insertNew_ok {map result : List (κ × α)} {a : α} :
    insertNew key duplicate map a = .ok result ↔
      ∃ k, key a = .ok k ∧ (map.lookup k).isNone ∧ result = (k, a) :: map := by
  constructor
  · intro h
    obtain ⟨k, hk, h⟩ := bind_ok h
    obtain ⟨_, hnone, h⟩ := bind_ok h
    exact ⟨k, hk, ensure_ok hnone, (Except.ok.inj h).symm⟩
  · rintro ⟨k, hk, hnone, rfl⟩
    unfold insertNew
    rw [hk, ok_bind, ensure_eq hnone]
    rfl

/-- Inserting succeeds just when the keys are distinct; the last value is in front. -/
theorem insertAll_ok {xs : List α} {map result : List (κ × α)} (hmap : Keyed map) :
    xs.foldlM (insertNew key duplicate) map = .ok result ↔ ∃ added, result = added ++ map ∧
      added.map Prod.snd = xs.reverse ∧ (∀ e ∈ added, key e.2 = .ok e.1) ∧ Keyed result := by
  induction xs generalizing map with
  | nil =>
    constructor
    · intro h; cases h; exact ⟨[], rfl, rfl, by simp, hmap⟩
    · rintro ⟨added, rfl, hadded, _, _⟩
      rw [List.map_eq_nil_iff.mp hadded]; rfl
  | cons x xs ih =>
    rw [List.foldlM_cons]
    constructor
    · intro h
      obtain ⟨mid, hone, hrest⟩ := bind_ok h
      obtain ⟨k, hk, hnone, rfl⟩ := insertNew_ok.mp hone
      obtain ⟨added, rfl, hadded, hkeys, hkeyed⟩ := (ih (hmap.cons hnone)).mp hrest
      refine ⟨added ++ [(k, x)], by simp, by simp [hadded], ?_, hkeyed⟩
      exact List.forall_mem_append.mpr ⟨hkeys, by simpa using hk⟩
    · rintro ⟨added, rfl, hadded, hkeys, hkeyed⟩
      rw [List.reverse_cons] at hadded
      obtain ⟨later, last, rfl, hlater, hlast⟩ := List.map_eq_append_iff.mp hadded
      obtain ⟨⟨k, y⟩, rfl, rfl⟩ : ∃ e, last = [e] ∧ e.2 = x := by
        cases last with
        | nil => cases hlast
        | cons e rest =>
          obtain ⟨he, hrest⟩ := List.cons.inj hlast
          rw [List.map_eq_nil_iff.mp hrest]
          exact ⟨e, rfl, he⟩
      rw [List.append_assoc] at hkeyed
      have hsuffix : Keyed ((k, y) :: map) := hkeyed.sublist ((List.sublist_append_right _ _).map _)
      have hnone : (map.lookup k).isNone := lookup_isNone.mpr fun v hv =>
        (List.nodup_cons.mp hsuffix).1 (List.mem_map.mpr ⟨(k, v), hv, rfl⟩)
      have hone : insertNew key duplicate map y = .ok ((k, y) :: map) :=
        insertNew_ok.mpr ⟨k, hkeys (k, y) (by simp), hnone, rfl⟩
      rw [hone, ok_bind]
      exact (ih hsuffix).mpr ⟨later, by simp, hlater, fun e he => hkeys e (by simp [he]), by
        simpa using hkeyed⟩

/-- The order of the insertions changes the order of the entries only. -/
theorem insertAll_perm {xs ys : List α} (hp : xs.Perm ys) {result : List (κ × α)}
    (h : xs.foldlM (insertNew key duplicate) [] = .ok result) :
    ∃ other, ys.foldlM (insertNew key duplicate) [] = .ok other ∧ result.Perm other := by
  obtain ⟨added, rfl, hadded, hkeys, hkeyed⟩ := (insertAll_ok Keyed.nil).mp h
  rw [List.append_nil] at hkeyed ⊢
  have hvalues : ys.reverse.Perm (added.map Prod.snd) :=
    hadded ▸ (ys.reverse_perm.trans hp.symm).trans xs.reverse_perm.symm
  obtain ⟨other, hsnd, hother⟩ :=
    (iff_of_eq (congrFun₂ (List.eq_map_comp_perm Prod.snd) ys.reverse added)).mpr hvalues
  refine ⟨other, (insertAll_ok Keyed.nil).mpr ⟨other, by simp, hsnd.symm, ?_,
    hkeyed.perm hother.symm⟩, hother.symm⟩
  exact fun e he => hkeys e (hother.mem_iff.mp he)

end

end AmlReal.Foundations.EntryList
