import Mathlib.Algebra.BigOperators.Group.Finset.Piecewise
import Mathlib.Data.List.Sort
import Mathlib.Data.Prod.Lex

/-! # Queries that keep the first rows of every group

`ORDER BY rank DESC LIMIT m BY group`. Rows of equal rank come in any order, so
what such a query returns is said of every descending order of its rows. The
last section compares it with a query that keeps the best rows of every target,
where the target of a row is not its group. -/

namespace AmlReal.Foundations.LimitBy

section
variable {ρ γ : Type} [DecidableEq γ] (m : Nat) (group : ρ → γ)

/-- The first `m` rows of every group; `seen` has the groups of the rows before. -/
def limitFrom : List γ → List ρ → List ρ
  | _, [] => []
  | seen, r :: rest =>
    if seen.count (group r) < m then r :: limitFrom (group r :: seen) rest
    else limitFrom (group r :: seen) rest

/-- The other rows. -/
def cutFrom : List γ → List ρ → List ρ
  | _, [] => []
  | seen, r :: rest =>
    if seen.count (group r) < m then cutFrom (group r :: seen) rest
    else r :: cutFrom (group r :: seen) rest

def limitBy (rows : List ρ) : List ρ := limitFrom m group [] rows

def cutBy (rows : List ρ) : List ρ := cutFrom m group [] rows

/-- The number of rows of a group. -/
def sizeOf (g : γ) (rows : List ρ) : Nat := rows.countP fun r => group r = g

variable {m group}

theorem limit_cut_perm (seen : List γ) (rows : List ρ) :
    (limitFrom m group seen rows ++ cutFrom m group seen rows).Perm rows := by
  induction rows generalizing seen with
  | nil => exact List.Perm.nil
  | cons r rest ih =>
    unfold limitFrom cutFrom
    split
    · exact (ih _).cons r
    · exact List.perm_middle.trans ((ih _).cons r)

theorem limitFrom_append (seen : List γ) (first rest : List ρ) :
    limitFrom m group seen (first ++ rest) =
      limitFrom m group seen first ++ limitFrom m group ((first.map group).reverse ++ seen) rest := by
  induction first generalizing seen with
  | nil => rfl
  | cons r first ih =>
    rw [List.cons_append, limitFrom, limitFrom, ih]
    split
    · simp
    · simp

theorem cutFrom_append (seen : List γ) (first rest : List ρ) :
    cutFrom m group seen (first ++ rest) =
      cutFrom m group seen first ++ cutFrom m group ((first.map group).reverse ++ seen) rest := by
  induction first generalizing seen with
  | nil => rfl
  | cons r first ih =>
    rw [List.cons_append, cutFrom, cutFrom, ih]
    split
    · simp
    · simp

theorem count_seen (g : γ) (first : List ρ) :
    ((first.map group).reverse ++ []).count g = sizeOf group g first := by
  rw [List.append_nil, List.count_reverse, sizeOf, List.count, List.countP_map]
  exact List.countP_congr fun r _ => by simp

/-- Where a row stands behind fewer than `m` rows of its group, it is kept. -/
theorem limitBy_split {first rest : List ρ} {r : ρ} (h : sizeOf group (group r) first < m) :
    limitBy m group (first ++ r :: rest) = limitBy m group first ++
      r :: limitFrom m group (group r :: ((first.map group).reverse ++ [])) rest := by
  rw [limitBy, limitFrom_append, limitFrom, if_pos (by rwa [count_seen])]
  rfl

theorem limitBy_split_cut {first rest : List ρ} {r : ρ} (h : m ≤ sizeOf group (group r) first) :
    limitBy m group (first ++ r :: rest) = limitBy m group first ++
      limitFrom m group (group r :: ((first.map group).reverse ++ [])) rest := by
  rw [limitBy, limitFrom_append, limitFrom, if_neg (by rw [count_seen]; omega)]
  rfl

theorem mem_cutBy_split {first rest : List ρ} {r : ρ} (h : m ≤ sizeOf group (group r) first) :
    r ∈ cutBy m group (first ++ r :: rest) := by
  rw [cutBy, cutFrom_append, cutFrom, if_neg (by rw [count_seen]; omega)]
  simp

theorem exists_split_of_limitFrom {seen : List γ} {rows : List ρ} {r : ρ}
    (h : r ∈ limitFrom m group seen rows) : ∃ first rest, rows = first ++ r :: rest ∧
      seen.count (group r) + sizeOf group (group r) first < m := by
  induction rows generalizing seen with
  | nil => cases h
  | cons o rows ih =>
    have hlater : r ∈ limitFrom m group (group o :: seen) rows → ∃ first rest,
        o :: rows = first ++ r :: rest ∧ seen.count (group r) + sizeOf group (group r) first < m := by
      intro hr
      obtain ⟨first, rest, rfl, hcount⟩ := ih hr
      refine ⟨o :: first, rest, rfl, ?_⟩
      simp only [sizeOf, List.count_cons, List.countP_cons, beq_iff_eq, decide_eq_true_eq] at hcount ⊢
      omega
    unfold limitFrom at h
    split at h
    · rename_i hcount
      rcases List.mem_cons.mp h with rfl | hr
      · exact ⟨[], rows, rfl, by simpa [sizeOf] using hcount⟩
      · exact hlater hr
    · exact hlater h

theorem exists_split_of_cutFrom {seen : List γ} {rows : List ρ} {r : ρ}
    (h : r ∈ cutFrom m group seen rows) : ∃ first rest, rows = first ++ r :: rest ∧
      m ≤ seen.count (group r) + sizeOf group (group r) first := by
  induction rows generalizing seen with
  | nil => cases h
  | cons o rows ih =>
    have hlater : r ∈ cutFrom m group (group o :: seen) rows → ∃ first rest,
        o :: rows = first ++ r :: rest ∧ m ≤ seen.count (group r) + sizeOf group (group r) first := by
      intro hr
      obtain ⟨first, rest, rfl, hcount⟩ := ih hr
      refine ⟨o :: first, rest, rfl, ?_⟩
      simp only [sizeOf, List.count_cons, List.countP_cons, beq_iff_eq, decide_eq_true_eq] at hcount ⊢
      omega
    unfold cutFrom at h
    split at h
    · exact hlater h
    · rename_i hcount
      rcases List.mem_cons.mp h with rfl | hr
      · exact ⟨[], rows, rfl, by simp [sizeOf]; omega⟩
      · exact hlater hr

/-- Of every group the limit keeps what it can. -/
theorem sizeOf_limitFrom (g : γ) (seen : List γ) (rows : List ρ) :
    sizeOf group g (limitFrom m group seen rows) = min (m - seen.count g) (sizeOf group g rows) := by
  induction rows generalizing seen with
  | nil => simp [limitFrom, sizeOf]
  | cons r rows ih =>
    have hrest := ih (group r :: seen)
    unfold limitFrom
    by_cases hg : group r = g
    · subst hg
      split
      · simp only [sizeOf, List.count_cons_self, List.countP_cons_of_pos, decide_true] at hrest ⊢
        omega
      · simp only [sizeOf, List.count_cons_self, List.countP_cons_of_pos, decide_true] at hrest ⊢
        omega
    · have hcount : (group r :: seen).count g = seen.count g := List.count_cons_of_ne hg
      rw [hcount] at hrest
      split
      · simpa [sizeOf, hg] using hrest
      · simpa [sizeOf, hg] using hrest

end

/-! ## Descending orders -/

/-- The order in which rows come before they are sorted. -/
structure Arrangement (ρ : Type) where
  order : List ρ → List ρ
  perm : ∀ rows, (order rows).Perm rows

def Arrangement.asGiven (ρ : Type) : Arrangement ρ := ⟨id, fun rows => List.Perm.refl rows⟩

section
variable {ρ γ κ : Type} [DecidableEq γ] [LinearOrder κ] {m : Nat} {group : ρ → γ} {rank : ρ → κ}

/-- An order that `ORDER BY rank DESC` may return the rows in. -/
structure Ordered (rank : ρ → κ) (rows l : List ρ) : Prop where
  perm : l.Perm rows
  descends : l.Pairwise fun a b => rank b ≤ rank a

variable (group rank)

/-- The rows of its group that come before a row in every order. -/
def ahead (rows : List ρ) (r : ρ) : Nat := rows.countP fun o => group o = group r ∧ rank r < rank o

/-- The rows of its group that may come before a row, and the row itself. -/
def upto (rows : List ρ) (r : ρ) : Nat := rows.countP fun o => group o = group r ∧ rank r ≤ rank o

variable {group rank} {rows l : List ρ} {r p : ρ}

theorem ahead_perm (h : l.Perm rows) (r : ρ) : ahead group rank l r = ahead group rank rows r :=
  h.countP_eq _

theorem upto_perm (h : l.Perm rows) (r : ρ) : upto group rank l r = upto group rank rows r :=
  h.countP_eq _

theorem sizeOf_perm {g : γ} (h : l.Perm rows) : sizeOf group g l = sizeOf group g rows := h.countP_eq _

theorem Ordered.after {first rest : List ρ} (h : Ordered rank rows (first ++ r :: rest)) :
    (∀ o ∈ first, rank r ≤ rank o) ∧ ∀ o ∈ rest, rank o ≤ rank r := by
  obtain ⟨_, hrest, hcross⟩ := List.pairwise_append.mp h.descends
  exact ⟨fun o ho => hcross o ho r (by simp), (List.pairwise_cons.mp hrest).1⟩

/-- A row that is kept in some order has fewer than `m` rows ahead. -/
theorem Ordered.ahead_lt (h : Ordered rank rows l) (hr : r ∈ limitBy m group l) :
    ahead group rank rows r < m := by
  obtain ⟨first, rest, rfl, hcount⟩ := exists_split_of_limitFrom hr
  obtain ⟨_, hafter⟩ := h.after
  rw [← ahead_perm h.perm, ahead, List.countP_append, List.countP_cons_of_neg (by simp)]
  have hrest : rest.countP (fun o => group o = group r ∧ rank r < rank o) = 0 := by
    refine List.countP_eq_zero.mpr fun o ho => ?_
    simpa using fun _ => hafter o ho
  have hfirst : first.countP (fun o => group o = group r ∧ rank r < rank o) ≤
      sizeOf group (group r) first := List.countP_mono_left fun o _ ho => by simp_all
  rw [List.count_nil] at hcount
  omega

/-- A row that is cut in some order is not among the first `m` in every order. -/
theorem Ordered.lt_upto (h : Ordered rank rows l) (hr : r ∈ cutBy m group l) :
    m < upto group rank rows r := by
  obtain ⟨first, rest, rfl, hcount⟩ := exists_split_of_cutFrom hr
  obtain ⟨hbefore, _⟩ := h.after
  rw [← upto_perm h.perm, upto, List.countP_append, List.countP_cons_of_pos (by simp)]
  have hfirst : sizeOf group (group r) first =
      first.countP fun o => group o = group r ∧ rank r ≤ rank o :=
    List.countP_congr fun o ho => by simpa using fun _ => hbefore o ho
  rw [List.count_nil, Nat.zero_add, hfirst] at hcount
  omega

theorem ordered_insertionSort (h : l.Perm rows) :
    Ordered rank rows (l.insertionSort fun a b => rank b ≤ rank a) := by
  refine ⟨(List.perm_insertionSort _ _).trans h, ?_⟩
  have : Std.Total fun a b : ρ => rank b ≤ rank a := ⟨fun a b => le_total (rank b) (rank a)⟩
  have : IsTrans ρ fun a b => rank b ≤ rank a := ⟨fun a b c hab hbc => le_trans hbc hab⟩
  exact List.pairwise_insertionSort _ _

variable (rank) in
theorem exists_ordered (rows : List ρ) : ∃ l, Ordered rank rows l :=
  ⟨_, ordered_insertionSort (List.Perm.refl rows)⟩

/-- Every descending order is a sort of some arrangement of the rows. -/
theorem exists_arrangement (h : Ordered rank rows l) : ∃ arrange : Arrangement ρ,
    (arrange.order rows).insertionSort (fun a b => rank b ≤ rank a) = l := by
  classical
  refine ⟨⟨fun given => if given = rows then l else given, fun given => ?_⟩, ?_⟩
  · split
    · rename_i heq
      exact heq ▸ h.perm
    · exact List.Perm.refl given
  · show (if rows = rows then l else rows).insertionSort _ = l
    rw [if_pos rfl]
    exact List.Pairwise.insertionSort_eq h.descends

/-! Among rows of equal rank one may come first and another last. -/

section
variable [DecidableEq ρ]

def favour (first last o : ρ) : Nat := if o = first then 2 else if o = last then 0 else 1

/-- An order by rank in which `first` and `last` come at the ends of their ties. -/
def Favours (rank : ρ → κ) (first last : ρ) (rows l : List ρ) : Prop :=
  Ordered (fun o => toLex (rank o, favour first last o)) rows l

theorem Favours.ordered {first last : ρ} (h : Favours rank first last rows l) :
    Ordered rank rows l := by
  refine ⟨h.perm, h.descends.imp fun {a b} hab => ?_⟩
  rcases Prod.Lex.le_iff.mp hab with hlt | ⟨heq, _⟩
  · exact hlt.le
  · exact heq.le

theorem Favours.before {first last : ρ} {before after : List ρ}
    (h : Favours rank first last rows (before ++ first :: after)) (hfirst : first ∉ before) :
    ∀ o ∈ before, rank first < rank o := by
  intro o ho
  rcases Prod.Lex.le_iff.mp (Ordered.after h |>.1 o ho) with hlt | ⟨_, hfavour⟩
  · exact hlt
  · have hne : o ≠ first := fun heq => hfirst (heq ▸ ho)
    simp only [favour, if_pos, if_neg hne, ofLex_toLex] at hfavour
    split at hfavour
    · omega
    · omega

theorem Favours.after {first last : ρ} {before after : List ρ} (hne : first ≠ last)
    (h : Favours rank first last rows (before ++ last :: after)) (hlast : last ∉ after) :
    ∀ o ∈ after, rank o < rank last := by
  intro o ho
  rcases Prod.Lex.le_iff.mp (Ordered.after h |>.2 o ho) with hlt | ⟨_, hfavour⟩
  · exact hlt
  · have hother : o ≠ last := fun heq => hlast (heq ▸ ho)
    simp only [favour, if_neg hne.symm, if_pos, if_neg hother, ofLex_toLex] at hfavour
    split at hfavour
    · omega
    · omega

theorem Favours.place_first {first last : ρ} {before after : List ρ}
    (h : Favours rank first last rows (before ++ first :: after)) (hfirst : first ∉ before) :
    sizeOf group (group first) before ≤ ahead group rank rows first := by
  rw [← ahead_perm h.perm, ahead, List.countP_append]
  have hbefore : sizeOf group (group first) before =
      before.countP fun o => group o = group first ∧ rank first < rank o :=
    List.countP_congr fun o ho => by simpa using fun _ => h.before hfirst o ho
  omega

theorem Favours.place_last {first last : ρ} {before after : List ρ} (hne : first ≠ last)
    (h : Favours rank first last rows (before ++ last :: after)) (hlast : last ∉ after) :
    upto group rank rows last ≤ sizeOf group (group last) before + 1 := by
  rw [← upto_perm h.perm, upto, List.countP_append, List.countP_cons_of_pos (by simp)]
  have hafter : after.countP (fun o => group o = group last ∧ rank last ≤ rank o) = 0 := by
    refine List.countP_eq_zero.mpr fun o ho => ?_
    simpa using fun _ => h.after hne hlast o ho
  have hbefore : before.countP (fun o => group o = group last ∧ rank last ≤ rank o) ≤
      sizeOf group (group last) before := List.countP_mono_left fun o _ ho => by simp_all
  omega

end

theorem exists_last_split {α : Type} {a : α} {l : List α} (h : a ∈ l) :
    ∃ before after, l = before ++ a :: after ∧ a ∉ after := by
  obtain ⟨before, after, hsplit, hnot⟩ := List.eq_append_cons_of_mem (List.mem_reverse.mpr h)
  refine ⟨after.reverse, before.reverse, ?_, by simpa using hnot⟩
  rw [← List.reverse_reverse l, hsplit]
  simp

/-- A row with fewer than `m` rows ahead is kept in some order. -/
theorem exists_kept (hr : r ∈ rows) (hkeep : ahead group rank rows r < m) :
    ∃ l, Ordered rank rows l ∧ r ∈ limitBy m group l := by
  classical
  obtain ⟨l, hl⟩ := exists_ordered (fun o => toLex (rank o, favour r r o)) rows
  have hfavours : Favours rank r r rows l := hl
  refine ⟨l, hfavours.ordered, ?_⟩
  obtain ⟨before, after, rfl, hnot⟩ := List.eq_append_cons_of_mem (hl.perm.mem_iff.mpr hr)
  rw [limitBy_split (Nat.lt_of_le_of_lt (hfavours.place_first hnot) hkeep)]
  simp

/-- A row that can be kept and another that can be cut: some order does both. -/
theorem exists_kept_cut (hr : r ∈ rows) (hp : p ∈ rows) (hne : r ≠ p)
    (hkeep : ahead group rank rows r < m) (hcut : m < upto group rank rows p) :
    ∃ l, Ordered rank rows l ∧ r ∈ limitBy m group l ∧ p ∈ cutBy m group l := by
  classical
  obtain ⟨l, hl⟩ := exists_ordered (fun o => toLex (rank o, favour r p o)) rows
  have hfavours : Favours rank r p rows l := hl
  refine ⟨l, hfavours.ordered, ?_, ?_⟩
  · obtain ⟨before, after, rfl, hnot⟩ := List.eq_append_cons_of_mem (hl.perm.mem_iff.mpr hr)
    rw [limitBy_split (Nat.lt_of_le_of_lt (hfavours.place_first hnot) hkeep)]
    simp
  · obtain ⟨before, after, rfl, hnot⟩ := exists_last_split (hl.perm.mem_iff.mpr hp)
    have hplace : upto group rank rows p ≤ sizeOf group (group p) before + 1 :=
      hfavours.place_last hne hnot
    exact mem_cutBy_split (by omega)

/-- Two tied rows of a group that the limit may divide: some order keeps one and
cuts the other, and they can change places. -/
theorem exists_swap (hr : r ∈ rows) (hp : p ∈ rows) (hne : r ≠ p) (hgroup : group p = group r)
    (hrank : rank p = rank r) (hkeep : ahead group rank rows r < m)
    (hcut : m < upto group rank rows r) : ∃ a b c, Ordered rank rows (a ++ r :: (b ++ p :: c)) ∧
      Ordered rank rows (a ++ p :: (b ++ r :: c)) ∧ sizeOf group (group r) a < m ∧
        m ≤ sizeOf group (group r) (a ++ r :: b) := by
  classical
  obtain ⟨l, hl⟩ := exists_ordered (fun o => toLex (rank o, favour r p o)) rows
  have hfavours : Favours rank r p rows l := hl
  obtain ⟨a, after, rfl, hnot⟩ := List.eq_append_cons_of_mem (hl.perm.mem_iff.mpr hr)
  have hpa : p ∉ a := fun hpa => absurd (hfavours.before hnot p hpa) (by rw [hrank]; exact lt_irrefl _)
  have hlater : p ∈ after := by
    have hmem := hl.perm.mem_iff.mpr hp
    simpa [hpa, hne.symm] using hmem
  obtain ⟨b, c, rfl, hlast⟩ := exists_last_split hlater
  have hsplit : a ++ r :: (b ++ p :: c) = (a ++ r :: b) ++ p :: c := by simp
  have hordered := hfavours.ordered
  refine ⟨a, b, c, hordered, ⟨?_, ?_⟩, Nat.lt_of_le_of_lt (hfavours.place_first hnot) hkeep, ?_⟩
  · have hswap : (p :: (b ++ r :: c)).Perm (r :: (b ++ p :: c)) :=
      calc (p :: (b ++ r :: c)).Perm (p :: r :: (b ++ c)) := List.perm_middle.cons p
        _ |>.Perm (r :: p :: (b ++ c)) := List.Perm.swap ..
        _ |>.Perm (r :: (b ++ p :: c)) := List.perm_middle.symm.cons r
    exact (hswap.append_left a).trans hordered.perm
  · have hmap : (a ++ p :: (b ++ r :: c)).map rank = (a ++ r :: (b ++ p :: c)).map rank := by
      simp [hrank]
    have hranks : ((a ++ r :: (b ++ p :: c)).map rank).Pairwise fun x y => y ≤ x :=
      List.pairwise_map.mpr hordered.descends
    rw [← hmap] at hranks
    exact List.pairwise_map.mp hranks
  · rw [hsplit] at hfavours
    have hplace : upto group rank rows p ≤ sizeOf group (group p) (a ++ r :: b) + 1 :=
      hfavours.place_last hne hlast
    have hupto : upto group rank rows p = upto group rank rows r := by
      simp [upto, hgroup, hrank]
    rw [hgroup] at hplace
    omega

end

/-! ## The best rows of every target -/

section
variable {ρ γ τ κ σ : Type} [DecidableEq γ] [DecidableEq τ] [LinearOrder κ] [LinearOrder σ]

/-- The chosen rows are as many of the best of the offered rows as `m` allows. -/
def Best (m : Nat) (score : ρ → σ) (offered chosen : List ρ) : Prop :=
  ∃ others, (chosen ++ others).Perm offered ∧ chosen.length = min m offered.length ∧
    ∀ c ∈ chosen, ∀ o ∈ others, score o ≤ score c

theorem Best.ne_nil {m : Nat} {score : ρ → σ} {offered chosen : List ρ}
    (h : Best m score offered chosen) (hm : 0 < m) (hoffered : offered ≠ []) : chosen ≠ [] := by
  obtain ⟨others, _, hlength, _⟩ := h
  have hpos := List.length_pos_iff.mpr hoffered
  exact List.length_pos_iff.mp (by omega)

variable (m : Nat) (group : ρ → γ) (target : ρ → τ) (rank : ρ → κ) (score : ρ → σ)

def ofTarget (x : τ) (rows : List ρ) : List ρ := rows.filter fun r => target r = x

/-- The rows of a target in a group that can be among the first `m` of the group. -/
def canKeep (rows : List ρ) (x : τ) (g : γ) : Nat :=
  rows.countP fun r => (group r = g ∧ target r = x) ∧ ahead group rank rows r < m

/-- The rows of other targets in a group that always are. -/
def alwaysOther (rows : List ρ) (x : τ) (g : γ) : Nat :=
  rows.countP fun r => (group r = g ∧ target r ≠ x) ∧ upto group rank rows r ≤ m

/-- When the limit by group gives every target its best rows. -/
structure Fair (rows : List ρ) : Prop where
  /-- Ties that the limit divides are of one target. -/
  ties : ∀ r ∈ rows, ahead group rank rows r < m → m < upto group rank rows r →
    ∀ p ∈ rows, group p = group r → rank p = rank r → target p = target r
  /-- What can be kept scores no less than what can be cut. -/
  scores : ∀ r ∈ rows, ∀ p ∈ rows, target p = target r → ahead group rank rows r < m →
    m < upto group rank rows p → score p ≤ score r
  /-- What the groups leave to a target adds up to its share. -/
  counts : ∀ x, ∑ g ∈ (rows.map group).toFinset,
    min (canKeep m group target rank rows x g) (m - alwaysOther m group target rank rows x g) =
      min m (ofTarget target x rows).length

variable {m group target rank score} {rows l : List ρ}

theorem limit_cut_perm_of (h : Ordered rank rows l) :
    (limitBy m group l ++ cutBy m group l).Perm rows := (limit_cut_perm [] l).trans h.perm

variable (m group) in
theorem countP_eq_add (h : Ordered rank rows l) (q : ρ → Prop) [DecidablePred q] :
    rows.countP q = (limitBy m group l).countP q + (cutBy m group l).countP q := by
  rw [← List.countP_append]
  exact ((limit_cut_perm_of h).countP_eq _).symm

theorem countP_and_add (p q : ρ → Prop) [DecidablePred p] [DecidablePred q] (rows : List ρ) :
    rows.countP p = rows.countP (fun r => p r ∧ q r) + rows.countP fun r => p r ∧ ¬q r := by
  induction rows with
  | nil => rfl
  | cons r rows ih =>
    rw [List.countP_cons, List.countP_cons, List.countP_cons, ih]
    by_cases hp : p r
    · by_cases hq : q r
      · simp only [hp, hq, decide_true, not_true, and_true, and_false, decide_false, if_true,
          Bool.false_eq_true, if_false]
        omega
      · simp only [hp, hq, decide_true, not_false_eq_true, and_true, and_false, decide_false, if_true,
          Bool.false_eq_true, if_false]
        omega
    · simp only [hp, false_and, decide_false, Bool.false_eq_true, if_false]
      omega

/-- Two divided ties of one group are one. -/
theorem rank_eq_of_divided {r p : ρ} (hgroup : group p = group r)
    (hr : ahead group rank rows r < m ∧ m < upto group rank rows r)
    (hp : ahead group rank rows p < m ∧ m < upto group rank rows p) : rank p = rank r := by
  have hle : ∀ {a b : ρ}, group b = group a → rank a < rank b →
      upto group rank rows b ≤ ahead group rank rows a := by
    intro a b hab hlt
    refine List.countP_mono_left fun o _ ho => ?_
    simp only [decide_eq_true_eq] at ho ⊢
    exact ⟨ho.1.trans hab, hlt.trans_le ho.2⟩
  rcases lt_trichotomy (rank p) (rank r) with hlt | heq | hlt
  · have hcount := hle hgroup.symm hlt
    omega
  · exact heq
  · have hcount := hle hgroup hlt
    omega

theorem sizeOf_limitBy (g : γ) (h : Ordered rank rows l) :
    sizeOf group g (limitBy m group l) = min m (sizeOf group g rows) := by
  rw [limitBy, sizeOf_limitFrom, sizeOf_perm h.perm]
  rfl

/-- How many rows of a target a group has among its first `m`. -/
theorem countP_limitBy (hties : ∀ r ∈ rows, ahead group rank rows r < m →
      m < upto group rank rows r → ∀ p ∈ rows, group p = group r → rank p = rank r →
        target p = target r) (h : Ordered rank rows l) (x : τ) (g : γ) :
    (limitBy m group l).countP (fun r => group r = g ∧ target r = x) =
      min (canKeep m group target rank rows x g) (m - alwaysOther m group target rank rows x g) := by
  have hmem : ∀ r, r ∈ limitBy m group l ∨ r ∈ cutBy m group l → r ∈ rows := by
    intro r hr
    have hperm : (limitBy m group l ++ cutBy m group l).Perm rows := limit_cut_perm_of h
    exact hperm.mem_iff.mp (List.mem_append.mpr hr)
  -- the rows that always stay stay, those that never stay do not
  have hcan : canKeep m group target rank rows x g =
      (limitBy m group l).countP (fun r => group r = g ∧ target r = x) +
        (cutBy m group l).countP fun r => (group r = g ∧ target r = x) ∧ ahead group rank rows r < m := by
    rw [canKeep, countP_eq_add m group h]
    congr 1
    exact List.countP_congr fun r hr => by simpa using fun _ _ => h.ahead_lt hr
  have hother : alwaysOther m group target rank rows x g =
      (limitBy m group l).countP fun r => (group r = g ∧ target r ≠ x) ∧ upto group rank rows r ≤ m := by
    rw [alwaysOther, countP_eq_add m group h, Nat.add_eq_left]
    refine List.countP_eq_zero.mpr fun r hr => ?_
    simpa using fun _ _ => h.lt_upto hr
  have hsize : sizeOf group g (limitBy m group l) =
      (limitBy m group l).countP (fun r => group r = g ∧ target r = x) +
        (limitBy m group l).countP fun r => group r = g ∧ target r ≠ x :=
    countP_and_add (fun r => group r = g) (fun r => target r = x) _
  have htotal : sizeOf group g (limitBy m group l) = min m (sizeOf group g rows) := sizeOf_limitBy g h
  by_cases hdivided : ∃ r ∈ rows, (group r = g ∧ target r = x) ∧
      ahead group rank rows r < m ∧ m < upto group rank rows r
  · obtain ⟨r, hr, ⟨rfl, rfl⟩, hdivided⟩ := hdivided
    -- a kept row of another target is not of the divided tie
    have hsame : (limitBy m group l).countP (fun o => group o = group r ∧ target o ≠ target r) =
        (limitBy m group l).countP fun o =>
          (group o = group r ∧ target o ≠ target r) ∧ upto group rank rows o ≤ m := by
      refine List.countP_congr fun o ho => ?_
      simp only [decide_eq_true_eq, iff_self_and, and_imp]
      intro hgroup htarget
      by_contra hupto
      have hrank := rank_eq_of_divided hgroup hdivided ⟨h.ahead_lt ho, not_le.mp hupto⟩
      exact htarget (hties r hr hdivided.1 hdivided.2 o (hmem o (Or.inl ho)) hgroup hrank)
    have hlarge : m < sizeOf group (group r) rows := by
      refine hdivided.2.trans_le (List.countP_mono_left fun o _ ho => ?_)
      simp_all
    omega
  · -- without a divided tie, what can stay stays
    have hnone : (cutBy m group l).countP (fun r => (group r = g ∧ target r = x) ∧
        ahead group rank rows r < m) = 0 := by
      refine List.countP_eq_zero.mpr fun r hr hq => hdivided ?_
      simp only [decide_eq_true_eq] at hq
      exact ⟨r, hmem r (Or.inr hr), hq.1, hq.2, h.lt_upto hr⟩
    have hle : (limitBy m group l).countP (fun r => (group r = g ∧ target r ≠ x) ∧
        upto group rank rows r ≤ m) ≤ (limitBy m group l).countP fun r => group r = g ∧ target r ≠ x :=
      List.countP_mono_left fun o _ ho => by simp_all
    omega

/-- The rows of a list, counted by their groups. -/
theorem sum_countP_group (q : ρ → Prop) [DecidablePred q] {S : Finset γ} {kept : List ρ}
    (hS : ∀ r ∈ kept, group r ∈ S) :
    ∑ g ∈ S, kept.countP (fun r => group r = g ∧ q r) = kept.countP q := by
  induction kept with
  | nil => simp
  | cons r kept ih =>
    have hrest := ih fun o ho => hS o (List.mem_cons_of_mem _ ho)
    have hone : ∑ g ∈ S, (if group r = g ∧ q r then 1 else 0) = if q r then 1 else 0 := by
      by_cases hq : q r
      · simp [hq, hS r (List.mem_cons_self ..)]
      · simp [hq]
    simp only [List.countP_cons, decide_eq_true_eq, Finset.sum_add_distrib, hrest, hone]

theorem length_ofTarget (hties : ∀ r ∈ rows, ahead group rank rows r < m →
      m < upto group rank rows r → ∀ p ∈ rows, group p = group r → rank p = rank r →
        target p = target r) (h : Ordered rank rows l) (x : τ) :
    (ofTarget target x (limitBy m group l)).length = ∑ g ∈ (rows.map group).toFinset,
      min (canKeep m group target rank rows x g) (m - alwaysOther m group target rank rows x g) := by
  have hgroups : ∀ r ∈ limitBy m group l, group r ∈ (rows.map group).toFinset := by
    intro r hr
    have hperm : (limitBy m group l ++ cutBy m group l).Perm rows := limit_cut_perm_of h
    exact List.mem_toFinset.mpr
      (List.mem_map_of_mem (hperm.mem_iff.mp (List.mem_append_left _ hr)))
  rw [ofTarget, ← List.countP_eq_length_filter, ← sum_countP_group _ hgroups]
  exact Finset.sum_congr rfl fun g _ => countP_limitBy hties h x g

/-- A limit by group gives every target its best rows in every order of the rows
exactly when it is fair. -/
theorem best_iff_fair : (∀ l, Ordered rank rows l → ∀ x,
    Best m score (ofTarget target x rows) (ofTarget target x (limitBy m group l))) ↔
      Fair m group target rank score rows := by
  constructor
  · intro hbest
    have hlength : ∀ l, Ordered rank rows l → ∀ x, (ofTarget target x (limitBy m group l)).length =
        min m (ofTarget target x rows).length := by
      intro l hl x
      obtain ⟨_, _, hlength, _⟩ := hbest l hl x
      exact hlength
    have hties : ∀ r ∈ rows, ahead group rank rows r < m → m < upto group rank rows r →
        ∀ p ∈ rows, group p = group r → rank p = rank r → target p = target r := by
      intro r hr hkeep hcut p hp hgroup hrank
      by_contra htarget
      have hne : r ≠ p := fun heq => htarget (heq ▸ rfl)
      obtain ⟨a, b, c, hl, hl', hplace, hplace'⟩ := exists_swap hr hp hne hgroup hrank hkeep hcut
      -- the two orders differ in which of the two rows is kept
      have hfirst := hlength _ hl (target r)
      have hsecond := hlength _ hl' (target r)
      have hsplit : a ++ r :: (b ++ p :: c) = (a ++ r :: b) ++ p :: c := by simp
      have hsplit' : a ++ p :: (b ++ r :: c) = (a ++ p :: b) ++ r :: c := by simp
      have hsize : sizeOf group (group r) (a ++ p :: b) = sizeOf group (group r) (a ++ r :: b) := by
        simp [sizeOf, hgroup]
      have hmap : (a ++ p :: b).map group = (a ++ r :: b).map group := by simp [hgroup]
      rw [hsplit, limitBy_split_cut (by rwa [hgroup]), limitBy_split hplace] at hfirst
      rw [hsplit', limitBy_split_cut (by rwa [hsize]), limitBy_split (by rwa [hgroup]), hmap] at hsecond
      simp only [ofTarget, List.filter_append, List.filter_cons, List.length_append, hgroup,
        htarget, decide_true, decide_false, if_true, Bool.false_eq_true, if_false,
        List.length_cons] at hfirst hsecond
      omega
    refine ⟨hties, ?_, ?_⟩
    · intro r hr p hp htarget hkeep hcut
      by_cases hne : r = p
      · rw [hne]
      · obtain ⟨l, hl, hkept, hcutl⟩ := exists_kept_cut hr hp hne hkeep hcut
        obtain ⟨others, hperm, _, hscores⟩ := hbest l hl (target r)
        refine hscores r (List.mem_filter.mpr ⟨hkept, by simp⟩) p ?_
        -- the other rows of the target are the ones that are cut
        have hall : (ofTarget target (target r) (limitBy m group l) ++
            ofTarget target (target r) (cutBy m group l)).Perm (ofTarget target (target r) rows) := by
          rw [ofTarget, ofTarget, ← List.filter_append]
          exact (limit_cut_perm_of hl).filter _
        have hothers := (List.perm_append_left_iff _).mp (hall.trans hperm.symm)
        exact hothers.mem_iff.mp (List.mem_filter.mpr ⟨hcutl, by simpa using htarget⟩)
    · intro x
      obtain ⟨l, hl⟩ := exists_ordered rank rows
      rw [← length_ofTarget hties hl x, hlength l hl x]
  · intro hfair l hl x
    refine ⟨ofTarget target x (cutBy m group l), ?_, ?_, ?_⟩
    · rw [ofTarget, ofTarget, ← List.filter_append]
      exact (limit_cut_perm_of hl).filter _
    · rw [length_ofTarget hfair.ties hl, hfair.counts]
    · intro c hc o ho
      obtain ⟨hc, htarget⟩ := List.mem_filter.mp hc
      obtain ⟨ho, htarget'⟩ := List.mem_filter.mp ho
      have hperm : (limitBy m group l ++ cutBy m group l).Perm rows := limit_cut_perm_of hl
      refine hfair.scores c (hperm.mem_iff.mp (List.mem_append_left _ hc)) o
        (hperm.mem_iff.mp (List.mem_append_right _ ho)) ?_ (hl.ahead_lt hc) (hl.lt_upto ho)
      simp only [decide_eq_true_eq] at htarget htarget'
      rw [htarget, htarget']

end

end AmlReal.Foundations.LimitBy
