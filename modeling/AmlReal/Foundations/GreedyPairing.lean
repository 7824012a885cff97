import Mathlib.Data.List.Nodup
import Mathlib.Data.List.Perm.Subperm

/-! # Greedy pairing in list order

Two lists are paired off one element after another: an element takes the first
partner that fits and whose key is still free, up to a limit. Each pair uses up
the keys of both its ends. The pairs found are a matching, and since nothing is
left to pair, no matching is more than twice as long. -/

namespace AmlReal.Foundations.GreedyPairing

section
variable {α β κ : Type} [DecidableEq κ] (left : α → κ) (right : β → κ) (fits : α → β → Bool)

def keys (pairs : List (α × β)) : List κ := pairs.flatMap fun p => [left p.1, right p.2]

/-- Pairs that fit, with no key used twice. -/
structure Matching (as : List α) (bs : List β) (pairs : List (α × β)) : Prop where
  listed : ∀ p ∈ pairs, p.1 ∈ as ∧ p.2 ∈ bs ∧ fits p.1 p.2 = true
  disjoint : (keys left right pairs).Nodup

def pick (bs : List β) (found : List (α × β)) (a : α) : List (α × β) :=
  if left a ∈ keys left right found then found
  else match bs.find? fun b => fits a b && right b ∉ keys left right found with
    | none => found
    | some b => found ++ [(a, b)]

def greedy (limit : Nat) (bs : List β) : List α → List (α × β) → List (α × β)
  | [], found => found
  | a :: as, found =>
    if limit ≤ (pick left right fits bs found a).length then pick left right fits bs found a
    else greedy limit bs as (pick left right fits bs found a)

end

section
variable {α β κ : Type} {left : α → κ} {right : β → κ} {fits : α → β → Bool}
  {as : List α} {bs : List β} {pairs found : List (α × β)}

@[simp] theorem keys_append (ps qs : List (α × β)) :
    keys left right (ps ++ qs) = keys left right ps ++ keys left right qs := List.flatMap_append

@[simp] theorem keys_cons (p : α × β) (ps : List (α × β)) :
    keys left right (p :: ps) = left p.1 :: right p.2 :: keys left right ps := rfl

theorem length_keys (ps : List (α × β)) : (keys left right ps).length = 2 * ps.length := by
  induction ps with
  | nil => rfl
  | cons p ps ih =>
    simp only [keys_cons, List.length_cons, ih]
    omega

theorem keys_subset {ps qs : List (α × β)} (h : ps <+: qs) :
    keys left right ps ⊆ keys left right qs := by
  obtain ⟨rest, rfl⟩ := h
  simp

theorem Matching.nil : Matching left right fits as bs [] where
  listed := by simp
  disjoint := List.nodup_nil

/-- Only which elements are listed matters, not their order or number. -/
theorem Matching.mono {as' : List α} {bs' : List β} (h : Matching left right fits as bs pairs)
    (ha : as ⊆ as') (hb : bs ⊆ bs') : Matching left right fits as' bs' pairs where
  listed p hp := by
    obtain ⟨h₁, h₂, h₃⟩ := h.listed p hp
    exact ⟨ha h₁, hb h₂, h₃⟩
  disjoint := h.disjoint

theorem Matching.take (h : Matching left right fits as bs pairs) (n : Nat) :
    Matching left right fits as bs (pairs.take n) where
  listed p hp := h.listed p (List.mem_of_mem_take hp)
  disjoint := by
    have hsplit := h.disjoint
    rw [← List.take_append_drop n pairs, keys_append] at hsplit
    exact List.Nodup.of_append_left hsplit

variable [DecidableEq κ]

theorem pick_isPrefix (bs : List β) (found : List (α × β)) (a : α) :
    found <+: pick left right fits bs found a := by
  unfold pick
  split
  · exact List.prefix_rfl
  · split
    · exact List.prefix_rfl
    · exact List.prefix_append _ _

theorem greedy_isPrefix (limit : Nat) (bs : List β) (as : List α) (found : List (α × β)) :
    found <+: greedy left right fits limit bs as found := by
  induction as generalizing found with
  | nil => exact List.prefix_rfl
  | cons a as ih =>
    simp only [greedy]
    split
    · exact pick_isPrefix bs found a
    · exact (pick_isPrefix bs found a).trans (ih _)

theorem pick_matching (hne : ∀ a b, fits a b = true → left a ≠ right b)
    (h : Matching left right fits as bs found) {a : α} (ha : a ∈ as) :
    Matching left right fits as bs (pick left right fits bs found a) := by
  unfold pick
  split
  · exact h
  · rename_i hleft
    split
    · exact h
    · rename_i b hfind
      have hb := List.find?_some hfind
      obtain ⟨hfits, hright⟩ : fits a b = true ∧ right b ∉ keys left right found := by
        simpa using hb
      constructor
      · intro p hp
        rcases List.mem_append.mp hp with hp | hp
        · exact h.listed p hp
        · obtain rfl := List.mem_singleton.mp hp
          exact ⟨ha, List.mem_of_find?_eq_some hfind, hfits⟩
      · rw [keys_append]
        refine List.Nodup.append h.disjoint (by simpa [keys] using hne a b hfits) ?_
        intro k hk hmem
        rcases List.mem_cons.mp hmem with rfl | hmem
        · exact hleft hk
        · obtain rfl := List.mem_singleton.mp hmem
          exact hright hk

theorem greedy_matching (hne : ∀ a b, fits a b = true → left a ≠ right b) (limit : Nat)
    (all : List α) (hsub : as ⊆ all) (h : Matching left right fits all bs found) :
    Matching left right fits all bs (greedy left right fits limit bs as found) := by
  induction as generalizing found with
  | nil => exact h
  | cons a as ih =>
    have hpick := pick_matching hne h (hsub List.mem_cons_self)
    simp only [greedy]
    split
    · exact hpick
    · exact ih (fun x hx => hsub (List.mem_cons_of_mem _ hx)) hpick

/-- After its turn an element is used up, or all its partners are. -/
theorem pick_blocks {a : α} {b : β} (hb : b ∈ bs) (hfits : fits a b = true) :
    left a ∈ keys left right (pick left right fits bs found a) ∨
      right b ∈ keys left right (pick left right fits bs found a) := by
  unfold pick
  split
  · exact .inl ‹_›
  · split
    · rename_i hnone
      have hall := List.find?_eq_none.mp hnone b hb
      right
      simpa [hfits] using hall
    · left
      simp

/-- Below the limit nothing that fits is left over. -/
theorem greedy_blocks {limit : Nat}
    (hlimit : (greedy left right fits limit bs as found).length < limit) {a : α} {b : β}
    (ha : a ∈ as) (hb : b ∈ bs) (hfits : fits a b = true) :
    left a ∈ keys left right (greedy left right fits limit bs as found) ∨
      right b ∈ keys left right (greedy left right fits limit bs as found) := by
  induction as generalizing found with
  | nil => cases ha
  | cons x xs ih =>
    simp only [greedy] at hlimit ⊢
    split at hlimit
    · omega
    · rename_i hgo
      rw [if_neg hgo]
      rcases List.mem_cons.mp ha with rfl | ha
      · have hkeep : keys left right (pick left right fits bs found a) ⊆
            keys left right (greedy left right fits limit bs xs (pick left right fits bs found a)) :=
          keys_subset (greedy_isPrefix limit bs xs _)
        exact (pick_blocks hb hfits).imp (fun h => hkeep h) fun h => hkeep h
      · exact ih hlimit ha

theorem length_le_used {used : List κ}
    (hmeet : ∀ p ∈ pairs, left p.1 ∈ used ∨ right p.2 ∈ used) :
    pairs.length ≤ ((keys left right pairs).filter (· ∈ used)).length := by
  induction pairs with
  | nil => simp
  | cons p ps ih =>
    have hrest := ih fun q hq => hmeet q (List.mem_cons_of_mem _ hq)
    have hkeep : ((keys left right ps).filter (· ∈ used)).length + 1 ≤
        ((keys left right (p :: ps)).filter (· ∈ used)).length := by
      rw [keys_cons, List.filter_cons, List.filter_cons]
      rcases hmeet p List.mem_cons_self with hu | hu
      · simp only [hu, decide_true, if_true, List.length_cons]
        split <;> simp
      · simp only [hu, decide_true, if_true]
        split <;> simp
    rw [List.length_cons]
    omega

/-- A matching all of whose pairs meet a set of keys is no longer than the set. -/
theorem Matching.length_le (h : Matching left right fits as bs pairs) {used : List κ}
    (hmeet : ∀ p ∈ pairs, left p.1 ∈ used ∨ right p.2 ∈ used) : pairs.length ≤ used.length := by
  have hsub : (keys left right pairs).filter (· ∈ used) ⊆ used := fun k hk => by
    simpa using (List.mem_filter.mp hk).2
  have hcount := (List.Nodup.subperm (h.disjoint.filter (· ∈ used)) hsub).length_le
  exact Nat.le_trans (length_le_used hmeet) hcount

/-- The greedy pairing reaches its limit or at least half of any matching. -/
theorem Matching.length_le_greedy {limit : Nat} (h : Matching left right fits as bs pairs)
    (hlimit : (greedy left right fits limit bs as []).length < limit) :
    pairs.length ≤ 2 * (greedy left right fits limit bs as []).length := by
  have hused : pairs.length ≤
      (keys left right (greedy left right fits limit bs as [])).length := by
    refine h.length_le fun p hp => ?_
    obtain ⟨ha, hb, hfits⟩ := h.listed p hp
    exact greedy_blocks hlimit ha hb hfits
  rwa [length_keys] at hused

end

end AmlReal.Foundations.GreedyPairing
