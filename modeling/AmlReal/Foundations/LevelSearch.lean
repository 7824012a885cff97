import Mathlib.Data.List.Basic

/-! # Searching a graph level by level

A queue holds vertices with the number of steps that led to them, in this order;
a vertex that was seen before is passed over. When the queue is empty every
vertex within the bound has been seen, after no more steps than are needed. -/

namespace AmlReal.Foundations.LevelSearch

section
variable {α : Type} (next : α → List α) (bound : Nat) (start : α)

/-- What so many steps lead to. -/
inductive Reach : Nat → α → Prop
  | start : Reach 0 start
  | step {k : Nat} {a b : α} : Reach k a → b ∈ next a → Reach (k + 1) b

/-- The vertices that a look at a vertex queues. -/
def ahead (a : α) (depth : Nat) : List (α × Nat) :=
  if depth + 1 < bound then (next a).map fun b => (b, depth + 1) else []

/-- The progress of a search: what was seen and what is in the queue. -/
structure Explored (seen queue : List (α × Nat)) : Prop where
  ordered : queue.Pairwise fun p q => p.2 ≤ q.2
  close : ∀ p ∈ queue, ∀ q ∈ queue, q.2 ≤ p.2 + 1
  behind : ∀ p ∈ seen, ∀ q ∈ queue, p.2 ≤ q.2
  sound : ∀ p ∈ seen ++ queue, Reach next start p.2 p.1 ∧ p.2 < bound
  started : (start, 0) ∈ seen ++ queue
  closed : ∀ p ∈ seen, p.2 + 1 < bound → ∀ b ∈ next p.1, ∃ d, d ≤ p.2 + 1 ∧ (b, d) ∈ seen ++ queue

end

namespace Explored
variable {α : Type} {next : α → List α} {bound : Nat} {start : α} {seen queue : List (α × Nat)}

theorem init (h : 0 < bound) : Explored next bound start [] [(start, 0)] where
  ordered := List.pairwise_singleton _ _
  close p hp q hq := by rw [List.mem_singleton.mp hp, List.mem_singleton.mp hq]; exact Nat.zero_le 1
  behind _ hp := absurd hp List.not_mem_nil
  sound p hp := by rw [List.mem_singleton.mp hp]; exact ⟨.start, h⟩
  started := List.mem_singleton_self _
  closed _ hp := absurd hp List.not_mem_nil

theorem mem_tail {a : α} {depth d : Nat} (h : Explored next bound start seen ((a, depth) :: queue))
    (hseen : (a, d) ∈ seen) {e : Nat} {b : α} (hmem : (b, e) ∈ seen ++ (a, depth) :: queue) :
    ∃ e', e' ≤ e ∧ (b, e') ∈ seen ++ queue := by
  rcases List.mem_append.mp hmem with hmem | hmem
  · exact ⟨e, Nat.le_refl e, List.mem_append_left _ hmem⟩
  · rcases List.mem_cons.mp hmem with heq | hmem
    · -- the vertex itself was seen after no more steps
      cases heq
      exact ⟨d, h.behind _ hseen _ (List.mem_cons_self ..), List.mem_append_left _ hseen⟩
    · exact ⟨e, Nat.le_refl e, List.mem_append_right _ hmem⟩

/-- Passing over a vertex that was seen. -/
theorem skip {a : α} {depth d : Nat} (h : Explored next bound start seen ((a, depth) :: queue))
    (hseen : (a, d) ∈ seen) : Explored next bound start seen queue where
  ordered := (List.pairwise_cons.mp h.ordered).2
  close p hp q hq := h.close p (List.mem_cons_of_mem _ hp) q (List.mem_cons_of_mem _ hq)
  behind p hp q hq := h.behind p hp q (List.mem_cons_of_mem _ hq)
  sound p hp := by
    refine h.sound p ?_
    rcases List.mem_append.mp hp with hp | hp
    · exact List.mem_append_left _ hp
    · exact List.mem_append_right _ (List.mem_cons_of_mem _ hp)
  started := by
    obtain ⟨e, he, hmem⟩ := h.mem_tail hseen h.started
    obtain rfl := Nat.le_zero.mp he
    exact hmem
  closed p hp hbound b hb := by
    obtain ⟨e, he, hmem⟩ := h.closed p hp hbound b hb
    obtain ⟨e', he', hmem'⟩ := h.mem_tail hseen hmem
    exact ⟨e', Nat.le_trans he' he, hmem'⟩

theorem mem_ahead {a b : α} {depth e : Nat} :
    (b, e) ∈ ahead next bound a depth ↔ depth + 1 < bound ∧ b ∈ next a ∧ e = depth + 1 := by
  unfold ahead
  by_cases hbound : depth + 1 < bound
  · rw [if_pos hbound, List.mem_map]
    constructor
    · rintro ⟨c, hc, heq⟩
      cases heq
      exact ⟨hbound, hc, rfl⟩
    · rintro ⟨_, hb, rfl⟩
      exact ⟨b, hb, rfl⟩
  · simp [if_neg hbound, hbound]

/-- Looking at a vertex queues what lies ahead of it. -/
theorem look {a : α} {depth : Nat} (h : Explored next bound start seen ((a, depth) :: queue)) :
    Explored next bound start ((a, depth) :: seen) (queue ++ ahead next bound a depth) := by
  obtain ⟨hfirst, hordered⟩ := List.pairwise_cons.mp h.ordered
  have hdepth : ∀ q ∈ queue ++ ahead next bound a depth, depth ≤ q.2 ∧ q.2 ≤ depth + 1 := by
    intro q hq
    rcases List.mem_append.mp hq with hq | hq
    · exact ⟨hfirst q hq, h.close _ (List.mem_cons_self ..) q (List.mem_cons_of_mem _ hq)⟩
    · obtain ⟨_, _, he⟩ := mem_ahead.mp hq
      omega
  have hkeep : ∀ p ∈ seen ++ (a, depth) :: queue,
      p ∈ (a, depth) :: seen ++ (queue ++ ahead next bound a depth) := by
    intro p hp
    rcases List.mem_append.mp hp with hp | hp
    · exact List.mem_append_left _ (List.mem_cons_of_mem _ hp)
    · rcases List.mem_cons.mp hp with rfl | hp
      · exact List.mem_append_left _ (List.mem_cons_self ..)
      · exact List.mem_append_right _ (List.mem_append_left _ hp)
  refine ⟨?_, ?_, ?_, ?_, hkeep _ h.started, ?_⟩
  · refine List.pairwise_append.mpr ⟨hordered, ?_, fun p hp q hq => ?_⟩
    · refine List.pairwise_of_forall_mem_list fun p hp q hq => ?_
      obtain ⟨_, _, hp⟩ := mem_ahead.mp hp
      obtain ⟨_, _, hq⟩ := mem_ahead.mp hq
      omega
    · obtain ⟨_, _, hq⟩ := mem_ahead.mp hq
      rw [hq]
      exact (hdepth p (List.mem_append_left _ hp)).2
  · intro p hp q hq
    have := hdepth p hp
    have := hdepth q hq
    omega
  · intro p hp q hq
    rcases List.mem_cons.mp hp with rfl | hp
    · exact (hdepth q hq).1
    · exact Nat.le_trans (h.behind p hp _ (List.mem_cons_self ..)) (hdepth q hq).1
  · intro p hp
    rcases List.mem_append.mp hp with hp | hp
    · rcases List.mem_cons.mp hp with rfl | hp
      · exact h.sound _ (List.mem_append_right _ (List.mem_cons_self ..))
      · exact h.sound p (List.mem_append_left _ hp)
    · rcases List.mem_append.mp hp with hp | hp
      · exact h.sound p (List.mem_append_right _ (List.mem_cons_of_mem _ hp))
      · obtain ⟨hbound, hb, he⟩ := mem_ahead.mp hp
        rw [he]
        exact ⟨.step (h.sound _ (List.mem_append_right _ (List.mem_cons_self ..))).1 hb, hbound⟩
  · intro p hp hbound b hb
    rcases List.mem_cons.mp hp with rfl | hp
    · exact ⟨depth + 1, Nat.le_refl _, List.mem_append_right _
        (List.mem_append_right _ (mem_ahead.mpr ⟨hbound, hb, rfl⟩))⟩
    · obtain ⟨e, he, hmem⟩ := h.closed p hp hbound b hb
      exact ⟨e, he, hkeep _ hmem⟩

/-- When nothing is left in the queue, all that the bound allows was seen. -/
theorem complete (h : Explored next bound start seen []) {k : Nat} {a : α} (hreach : Reach next start k a)
    (hbound : k < bound) : ∃ d, d ≤ k ∧ (a, d) ∈ seen := by
  induction hreach with
  | start => exact ⟨0, Nat.le_refl 0, by simpa using h.started⟩
  | @step k a b _ hb ih =>
    obtain ⟨d, hd, hmem⟩ := ih (Nat.lt_of_succ_lt hbound)
    obtain ⟨e, he, hmem'⟩ := h.closed _ hmem (by show d + 1 < bound; omega) b hb
    exact ⟨e, Nat.le_trans he (Nat.succ_le_succ hd), by simpa using hmem'⟩

end Explored

end AmlReal.Foundations.LevelSearch
