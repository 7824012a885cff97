import Mathlib.Data.List.TakeDrop
import Mathlib.Data.List.TakeWhile
import Mathlib.Data.List.Basic

/-! # Joined texts

A text that joins fields by a character none of them contains gives the fields
back. -/

namespace AmlReal.Foundations.JoinedText

/-- What stands before the first separator. -/
theorem before_separator {c : Char} {a b x y : List Char} (ha : c ∉ a) (hb : c ∉ b)
    (h : a ++ c :: x = b ++ c :: y) : a = b := by
  have hpos : ∀ l : List Char, c ∉ l → ∀ d ∈ l, (decide (d ≠ c)) = true := by
    intro l hl d hd
    exact decide_eq_true fun he => hl (he ▸ hd)
  have htake := congrArg (List.takeWhile fun d => decide (d ≠ c)) h
  simp only [List.takeWhile_append_of_pos (hpos a ha), List.takeWhile_append_of_pos (hpos b hb)]
    at htake
  simpa using htake

theorem split_separator {c : Char} {a b x y : List Char} (ha : c ∉ a) (hb : c ∉ b)
    (h : a ++ c :: x = b ++ c :: y) : a = b ∧ x = y := by
  have hbefore := before_separator ha hb h
  rw [hbefore] at h
  exact ⟨hbefore, (List.cons.inj (List.append_cancel_left h)).2⟩

/-- `str::split_once` -/
def splitOnce (separator : Char) (text : List Char) : Option (List Char × List Char) :=
  match text.span (· ≠ separator) with
  | (_, []) => none
  | (before, _ :: after) => some (before, after)

theorem splitOnce_append {c : Char} {before after : List Char} (h : c ∉ before) :
    splitOnce c (before ++ c :: after) = some (before, after) := by
  have hbefore : ∀ d ∈ before, decide (d ≠ c) = true := fun d hd =>
    decide_eq_true fun he => h (he ▸ hd)
  unfold splitOnce
  rw [List.span_eq_takeWhile_dropWhile, List.takeWhile_append_of_pos hbefore,
    List.dropWhile_append_of_pos hbefore]
  simp

theorem splitOnce_none {c : Char} {text : List Char} (h : c ∉ text) : splitOnce c text = none := by
  have hall : ∀ d ∈ text, decide (d ≠ c) = true := fun d hd => decide_eq_true fun he => h (he ▸ hd)
  have hdrop : text.dropWhile (fun d => decide (d ≠ c)) = [] := List.dropWhile_eq_nil_iff.mpr hall
  unfold splitOnce
  rw [List.span_eq_takeWhile_dropWhile, hdrop]

theorem splitOnce_eq_some {c : Char} {text before after : List Char} :
    splitOnce c text = some (before, after) ↔ text = before ++ c :: after ∧ c ∉ before := by
  constructor
  · intro h
    by_cases hc : c ∈ text
    · obtain ⟨front, rest, rfl, hfront⟩ := List.eq_append_cons_of_mem hc
      rw [splitOnce_append hfront, Option.some.injEq, Prod.mk.injEq] at h
      obtain ⟨rfl, rfl⟩ := h
      exact ⟨rfl, hfront⟩
    · rw [splitOnce_none hc] at h
      cases h
  · rintro ⟨rfl, h⟩
    exact splitOnce_append h

theorem splitOnce_eq_none {c : Char} {text : List Char} : splitOnce c text = none ↔ c ∉ text := by
  constructor
  · intro h hc
    obtain ⟨front, rest, rfl, hfront⟩ := List.eq_append_cons_of_mem hc
    rw [splitOnce_append hfront] at h
    cases h
  · exact splitOnce_none

/-- `str::split_once` with a text. -/
def splitText (pattern : List Char) : List Char → Option (List Char × List Char)
  | [] => if pattern = [] then some ([], []) else none
  | c :: rest =>
    if pattern.isPrefixOf (c :: rest) then some ([], (c :: rest).drop pattern.length)
    else (splitText pattern rest).map fun (before, after) => (c :: before, after)

/-- The pattern cannot start in a text without its first character. -/
theorem splitText_append {p : Char} {pattern before after : List Char} (h : p ∉ before) :
    splitText (p :: pattern) (before ++ (p :: pattern ++ after)) = some (before, after) := by
  induction before with
  | nil =>
    show splitText (p :: pattern) (p :: (pattern ++ after)) = _
    have hfront : (p :: pattern).isPrefixOf (p :: (pattern ++ after)) = true :=
      List.isPrefixOf_iff_prefix.mpr (List.prefix_append (p :: pattern) after)
    rw [splitText, if_pos hfront]
    simp
  | cons c before ih =>
    obtain ⟨hc, hbefore⟩ := List.ne_and_not_mem_of_not_mem_cons h
    show splitText (p :: pattern) (c :: (before ++ (p :: pattern ++ after))) = _
    have hnot : ¬ (p :: pattern).isPrefixOf (c :: (before ++ (p :: pattern ++ after))) = true := by
      intro hfront
      obtain ⟨_, hfront⟩ := List.isPrefixOf_iff_prefix.mp hfront
      exact hc (List.cons.inj hfront).1
    rw [splitText, if_neg hnot, ih hbefore]
    rfl

theorem intercalate_inj {c : Char} {xs ys : List String} (hx : ∀ s ∈ xs, c ∉ s.toList)
    (hy : ∀ s ∈ ys, c ∉ s.toList) (hxs : xs ≠ []) (hys : ys ≠ [])
    (h : (String.singleton c).intercalate xs = (String.singleton c).intercalate ys) : xs = ys := by
  have hsplit := String.toList_split_intercalate hx
  have hsplit' := String.toList_split_intercalate hy
  rw [if_neg hxs] at hsplit
  rw [if_neg hys] at hsplit'
  rw [← hsplit, ← hsplit', h]

/-- A decimal spelling contains digits only. -/
theorem notMem_repr {c : Char} (hc : c.isDigit = false) (n : Nat) : c ∉ n.repr.toList := by
  rw [Nat.toList_repr]
  intro h
  rw [Nat.isDigit_of_mem_toDigits (by omega) (by omega) h] at hc
  cases hc

theorem repr_ne_empty (n : Nat) : n.repr ≠ "" := by
  intro h
  have hlist := congrArg String.toList h
  rw [Nat.toList_repr] at hlist
  exact Nat.toDigits_ne_nil hlist

theorem repr_injective : Function.Injective Nat.repr := by
  intro a b h
  have hdigits := congrArg String.toList h
  rw [Nat.toList_repr, Nat.toList_repr] at hdigits
  rw [← Nat.ofDigitChars_ten_toDigits (n := a), hdigits, Nat.ofDigitChars_ten_toDigits]

theorem notMem_reprs {c : Char} (hc : c.isDigit = false) {path : List Nat} :
    ∀ s ∈ path.map Nat.repr, c ∉ s.toList := by
  intro s hs
  obtain ⟨n, _, rfl⟩ := List.mem_map.mp hs
  exact notMem_repr hc n

theorem join_nil_ne {c : Char} (hc : c.isDigit = false) {i : Nat} {path : List Nat} :
    (String.singleton c).intercalate ([] : List String) ≠
      (String.singleton c).intercalate ((i :: path).map Nat.repr) := by
  intro h
  have h : (String.singleton c).intercalate [""] =
    (String.singleton c).intercalate ((i :: path).map Nat.repr) := h
  have hlists := intercalate_inj (c := c) (by simp) (notMem_reprs hc) (by simp) (by simp) h
  exact repr_ne_empty i (List.cons.inj hlists).1.symm

/-- Joined numbers are told apart, the empty list included. -/
theorem join_repr_injective {c : Char} (hc : c.isDigit = false) {a b : List Nat}
    (h : (String.singleton c).intercalate (a.map Nat.repr) =
      (String.singleton c).intercalate (b.map Nat.repr)) : a = b := by
  match a, b with
  | [], [] => rfl
  | [], _ :: _ => exact absurd h (join_nil_ne hc)
  | _ :: _, [] => exact absurd h.symm (join_nil_ne hc)
  | i :: path, j :: path' =>
    have hlists := intercalate_inj (notMem_reprs hc) (notMem_reprs hc) (by simp) (by simp) h
    exact List.map_injective_iff.mpr repr_injective hlists

theorem notMem_intercalate {c : Char} {separator : String} (hs : c ∉ separator.toList)
    {xs : List String} (hx : ∀ s ∈ xs, c ∉ s.toList) :
    c ∉ (separator.intercalate xs).toList := by
  induction xs with
  | nil =>
    rw [String.intercalate_nil]
    exact List.not_mem_nil
  | cons x rest ih =>
    obtain ⟨hfirst, hrest⟩ := List.forall_mem_cons.mp hx
    cases rest with
    | nil => simpa using hfirst
    | cons y more =>
      rw [String.intercalate_cons_cons, String.toList_append, String.toList_append,
        List.mem_append, List.mem_append]
      exact not_or.mpr ⟨not_or.mpr ⟨hfirst, hs⟩, ih hrest⟩

end AmlReal.Foundations.JoinedText
