import Mathlib.Algebra.Order.Ring.Defs
import Mathlib.Order.Bounds.Basic

/-! # Best routes from a queue

Edges lead from state to state and weaken a score by a factor. A queue looks at
states in the order of their steps, and an arrival at a state is queued only when
it beats every earlier arrival there. Nothing is lost by this: an earlier arrival
took no more steps, so whatever continues the later one continues it as well. -/

namespace AmlReal.Foundations.BestRoutes

structure Net (κ ε ρ α : Type) where
  start : κ
  out : κ → List ε
  dest : ε → ρ
  /-- Where an edge leads on to, if it does. -/
  onward : ε → Option κ
  factor : κ → ε → α
  bound : Nat

structure Entry (κ α : Type) where
  key : κ
  score : α
  hops : Nat

section
variable {κ ε ρ α : Type} [Semiring α] [LinearOrder α] (net : Net κ ε ρ α)

/-- A route from the start, with its steps and the product of its factors. -/
inductive Route : Nat → κ → α → Prop
  | start : Route 0 net.start 1
  | step {n : Nat} {k k' : κ} {x : α} {e : ε} : Route n k x → e ∈ net.out k →
      net.onward e = some k' → Route (n + 1) k' (x * net.factor k e)

/-- A result that some route within the bound comes to, with its score. -/
def Found (r : ρ) (x : α) : Prop :=
  ∃ n k y e, Route net n k y ∧ n < net.bound ∧ e ∈ net.out k ∧ net.dest e = r ∧ x = y * net.factor k e

/-- What is known of a key is known as well afterwards, or something better is. -/
def Raises {ι : Type} (a b : ι → Option α) : Prop := ∀ i x, a i = some x → ∃ y, b i = some y ∧ x ≤ y

/-- What looking at some edges of an entry adds to the queue, the best scores and the results. -/
structure Relaxed (p : Entry κ α) (edges : List ε) (best best' : κ → Option α)
    (scores scores' : ρ → Option α) (kids : List (Entry κ α)) : Prop where
  born : ∀ q ∈ kids, q.hops = p.hops + 1 ∧
    ∃ e ∈ edges, net.onward e = some q.key ∧ q.score = p.score * net.factor p.key e
  kept : ∀ k x, best' k = some x → best k = some x ∨ ∃ q ∈ kids, q.key = k ∧ q.score = x
  passed : ∀ e ∈ edges, ∀ k, net.onward e = some k →
    ∃ x, best' k = some x ∧ p.score * net.factor p.key e ≤ x
  raised : Raises best best'
  found : ∀ r x, scores' r = some x → scores r = some x ∨
    ∃ e ∈ edges, net.dest e = r ∧ x = p.score * net.factor p.key e
  covered : ∀ e ∈ edges, ∃ x, scores' (net.dest e) = some x ∧ p.score * net.factor p.key e ≤ x
  improved : Raises scores scores'

/-- The progress of a search: what was looked at and what is in the queue. -/
structure Pruned (seen queue : List (Entry κ α)) (best : κ → Option α) (scores : ρ → Option α) :
    Prop where
  ordered : queue.Pairwise fun p q => p.hops ≤ q.hops
  close : ∀ p ∈ queue, ∀ q ∈ queue, q.hops ≤ p.hops + 1
  behind : ∀ p ∈ seen, ∀ q ∈ queue, p.hops ≤ q.hops
  sound : ∀ p ∈ seen ++ queue, Route net p.hops p.key p.score
  started : ∃ p ∈ seen ++ queue, p.key = net.start ∧ p.hops = 0 ∧ 1 ≤ p.score
  kept : ∀ k x, best k = some x → ∃ p ∈ seen ++ queue, p.key = k ∧ p.score = x
  closed : ∀ p ∈ seen, p.hops < net.bound → ∀ e ∈ net.out p.key, ∀ k, net.onward e = some k →
    ∃ q ∈ seen ++ queue, q.key = k ∧ q.hops ≤ p.hops + 1 ∧ p.score * net.factor p.key e ≤ q.score
  found : ∀ r x, scores r = some x → Found net r x
  covered : ∀ p ∈ seen, p.hops < net.bound → ∀ e ∈ net.out p.key,
    ∃ x, scores (net.dest e) = some x ∧ p.score * net.factor p.key e ≤ x

end

section
variable {ι α : Type} [LinearOrder α]

theorem Raises.refl (a : ι → Option α) : Raises a a := fun _ x h => ⟨x, h, le_refl x⟩

theorem Raises.trans {a b c : ι → Option α} (hab : Raises a b) (hbc : Raises b c) : Raises a c := by
  intro i x hx
  obtain ⟨y, hy, hxy⟩ := hab i x hx
  obtain ⟨z, hz, hyz⟩ := hbc i y hy
  exact ⟨z, hz, hxy.trans hyz⟩

end

section
variable {β : Type} {seen queue : List β} {p : β}

/-- The entries once the front one was looked at. -/
theorem mem_moved {q : β} {kids : List β} (h : q ∈ seen ++ p :: queue) :
    q ∈ p :: seen ++ (queue ++ kids) := by
  rcases List.mem_append.mp h with h | h
  · exact List.mem_append_left _ (List.mem_cons_of_mem _ h)
  · rcases List.mem_cons.mp h with rfl | h
    · exact List.mem_append_left _ (List.mem_cons_self ..)
    · exact List.mem_append_right _ (List.mem_append_left _ h)

theorem mem_of_moved {q : β} {kids : List β} (h : q ∈ p :: seen ++ (queue ++ kids)) :
    q ∈ seen ++ p :: queue ∨ q ∈ kids := by
  rcases List.mem_append.mp h with h | h
  · rcases List.mem_cons.mp h with rfl | h
    · exact Or.inl (List.mem_append_right _ (List.mem_cons_self ..))
    · exact Or.inl (List.mem_append_left _ h)
  · rcases List.mem_append.mp h with h | h
    · exact Or.inl (List.mem_append_right _ (List.mem_cons_of_mem _ h))
    · exact Or.inr h

end

namespace Relaxed
variable {κ ε ρ α : Type} [Semiring α] [LinearOrder α] {net : Net κ ε ρ α} {p : Entry κ α}
  {best best' best'' : κ → Option α} {scores scores' scores'' : ρ → Option α}

theorem nil : Relaxed net p [] best best scores scores [] where
  born _ hq := absurd hq List.not_mem_nil
  kept _ _ h := Or.inl h
  passed _ he := absurd he List.not_mem_nil
  raised := .refl _
  found _ _ h := Or.inl h
  covered _ he := absurd he List.not_mem_nil
  improved := .refl _

/-- Looking at some edges and then at others. -/
theorem append {edges others : List ε} {kids more : List (Entry κ α)}
    (h : Relaxed net p edges best best' scores scores' kids)
    (h' : Relaxed net p others best' best'' scores' scores'' more) :
    Relaxed net p (edges ++ others) best best'' scores scores'' (kids ++ more) where
  born q hq := by
    rcases List.mem_append.mp hq with hq | hq
    · obtain ⟨hhops, e, he, heq⟩ := h.born q hq
      exact ⟨hhops, e, List.mem_append_left _ he, heq⟩
    · obtain ⟨hhops, e, he, heq⟩ := h'.born q hq
      exact ⟨hhops, e, List.mem_append_right _ he, heq⟩
  kept k x hx := by
    rcases h'.kept k x hx with hx | ⟨q, hq, heq⟩
    · rcases h.kept k x hx with hx | ⟨q, hq, heq⟩
      · exact Or.inl hx
      · exact Or.inr ⟨q, List.mem_append_left _ hq, heq⟩
    · exact Or.inr ⟨q, List.mem_append_right _ hq, heq⟩
  passed e he k hk := by
    rcases List.mem_append.mp he with he | he
    · obtain ⟨x, hx, hle⟩ := h.passed e he k hk
      obtain ⟨y, hy, hxy⟩ := h'.raised k x hx
      exact ⟨y, hy, hle.trans hxy⟩
    · exact h'.passed e he k hk
  raised := h.raised.trans h'.raised
  found r x hx := by
    rcases h'.found r x hx with hx | ⟨e, he, heq⟩
    · rcases h.found r x hx with hx | ⟨e, he, heq⟩
      · exact Or.inl hx
      · exact Or.inr ⟨e, List.mem_append_left _ he, heq⟩
    · exact Or.inr ⟨e, List.mem_append_right _ he, heq⟩
  covered e he := by
    rcases List.mem_append.mp he with he | he
    · obtain ⟨x, hx, hle⟩ := h.covered e he
      obtain ⟨y, hy, hxy⟩ := h'.improved _ x hx
      exact ⟨y, hy, hle.trans hxy⟩
    · exact h'.covered e he
  improved := h.improved.trans h'.improved

end Relaxed

namespace Pruned
variable {κ ε ρ α : Type} [Semiring α] [LinearOrder α] {net : Net κ ε ρ α}
  {seen queue : List (Entry κ α)} {best best' : κ → Option α} {scores scores' : ρ → Option α}
  {p : Entry κ α}

theorem init : Pruned net [] [⟨net.start, 1, 0⟩] (fun _ => none) (fun _ => none) where
  ordered := List.pairwise_singleton _ _
  close p hp q hq := by rw [List.mem_singleton.mp hp, List.mem_singleton.mp hq]; exact Nat.zero_le 1
  behind _ hp := absurd hp List.not_mem_nil
  sound p hp := by rw [List.mem_singleton.mp hp]; exact .start
  started := ⟨_, List.mem_singleton_self _, rfl, rfl, le_refl _⟩
  kept _ _ h := by cases h
  closed _ hp := absurd hp List.not_mem_nil
  found _ _ h := by cases h
  covered _ hp := absurd hp List.not_mem_nil

/-- Looking at the edges of an entry that is within the bound, or passing over one that is not. -/
theorem look {edges : List ε} {kids : List (Entry κ α)}
    (h : Pruned net seen (p :: queue) best scores)
    (hrelaxed : Relaxed net p edges best best' scores scores' kids)
    (hin : p.hops < net.bound → ∀ e, e ∈ edges ↔ e ∈ net.out p.key) (hout : ¬ p.hops < net.bound → edges = []) :
    Pruned net (p :: seen) (queue ++ kids) best' scores' := by
  obtain ⟨hfirst, hordered⟩ := List.pairwise_cons.mp h.ordered
  have hroute : Route net p.hops p.key p.score :=
    h.sound p (List.mem_append_right _ (List.mem_cons_self ..))
  have hedge : ∀ e ∈ edges, p.hops < net.bound ∧ e ∈ net.out p.key := by
    intro e he
    by_cases hb : p.hops < net.bound
    · exact ⟨hb, (hin hb e).mp he⟩
    · rw [hout hb] at he
      cases he
  have hlater : ∀ q ∈ queue ++ kids, p.hops ≤ q.hops ∧ q.hops ≤ p.hops + 1 := by
    intro q hq
    rcases List.mem_append.mp hq with hq | hq
    · exact ⟨hfirst q hq, h.close _ (List.mem_cons_self ..) q (List.mem_cons_of_mem _ hq)⟩
    · have := (hrelaxed.born q hq).1
      omega
  have hearlier : ∀ q ∈ p :: seen ++ (queue ++ kids), q.hops ≤ p.hops + 1 := by
    intro q hq
    rcases List.mem_append.mp hq with hq | hq
    · rcases List.mem_cons.mp hq with rfl | hq
      · exact Nat.le_succ _
      · exact Nat.le_succ_of_le (h.behind q hq p (List.mem_cons_self ..))
    · exact (hlater q hq).2
  have hkept : ∀ k x, best' k = some x → ∃ q ∈ p :: seen ++ (queue ++ kids), q.key = k ∧ q.score = x := by
    intro k x hx
    rcases hrelaxed.kept k x hx with hx | ⟨q, hq, heq⟩
    · obtain ⟨q, hq, heq⟩ := h.kept k x hx
      exact ⟨q, mem_moved hq, heq⟩
    · exact ⟨q, List.mem_append_right _ (List.mem_append_right _ hq), heq⟩
  refine ⟨?_, ?_, ?_, ?_, ?_, hkept, ?_, ?_, ?_⟩
  · refine List.pairwise_append.mpr ⟨hordered, ?_, fun a ha b hb => ?_⟩
    · refine List.pairwise_of_forall_mem_list fun a ha b hb => ?_
      rw [(hrelaxed.born a ha).1, (hrelaxed.born b hb).1]
    · rw [(hrelaxed.born b hb).1]
      exact (hlater a (List.mem_append_left _ ha)).2
  · intro a ha b hb
    have := hlater a ha
    have := hlater b hb
    omega
  · intro a ha b hb
    rcases List.mem_cons.mp ha with rfl | ha
    · exact (hlater b hb).1
    · exact (h.behind a ha p (List.mem_cons_self ..)).trans (hlater b hb).1
  · intro q hq
    rcases mem_of_moved hq with hq | hq
    · exact h.sound q hq
    · obtain ⟨hhops, e, he, hnext, hscore⟩ := hrelaxed.born q hq
      rw [hhops, hscore]
      exact .step hroute (hedge e he).2 hnext
  · obtain ⟨q, hq, heq⟩ := h.started
    exact ⟨q, mem_moved hq, heq⟩
  · intro q hq hb e he k hk
    rcases List.mem_cons.mp hq with rfl | hq
    · -- what the arrival did not beat took no more steps
      obtain ⟨x, hx, hle⟩ := hrelaxed.passed e ((hin hb e).mpr he) k hk
      obtain ⟨r, hr, hkey, hscore⟩ := hkept k x hx
      exact ⟨r, hr, hkey, hearlier r hr, hscore ▸ hle⟩
    · obtain ⟨r, hr, heq⟩ := h.closed q hq hb e he k hk
      exact ⟨r, mem_moved hr, heq⟩
  · intro r x hx
    rcases hrelaxed.found r x hx with hx | ⟨e, he, hdest, hscore⟩
    · exact h.found r x hx
    · exact ⟨p.hops, p.key, p.score, e, hroute, (hedge e he).1, (hedge e he).2, hdest, hscore⟩
  · intro q hq hb e he
    rcases List.mem_cons.mp hq with rfl | hq
    · exact hrelaxed.covered e ((hin hb e).mpr he)
    · obtain ⟨x, hx, hle⟩ := h.covered q hq hb e he
      obtain ⟨y, hy, hxy⟩ := hrelaxed.improved _ x hx
      exact ⟨y, hy, hle.trans hxy⟩

end Pruned

section
variable {κ ε ρ α : Type} [Semiring α] [LinearOrder α] [IsStrictOrderedRing α] {net : Net κ ε ρ α}
  {seen : List (Entry κ α)} {best : κ → Option α} {scores : ρ → Option α}

/-- Some entry that was looked at is as good as a route and took no more steps. -/
theorem Pruned.dominated (h : Pruned net seen [] best scores) (hfactor : ∀ k e, 0 ≤ net.factor k e)
    {n : Nat} {k : κ} {x : α} (hroute : Route net n k x) (hn : n ≤ net.bound) :
    ∃ p ∈ seen, p.key = k ∧ p.hops ≤ n ∧ x ≤ p.score := by
  induction hroute with
  | start =>
    obtain ⟨p, hp, hkey, hhops, hscore⟩ := h.started
    exact ⟨p, by simpa using hp, hkey, hhops.le, hscore⟩
  | @step n k k' x e _ he hk ih =>
    obtain ⟨p, hp, rfl, hhops, hscore⟩ := ih (Nat.le_of_succ_le hn)
    obtain ⟨q, hq, hkey, hle, hq'⟩ := h.closed p hp (by omega) e he k' hk
    refine ⟨q, by simpa using hq, hkey, by omega, le_trans ?_ hq'⟩
    exact mul_le_mul_of_nonneg_right hscore (hfactor _ e)

/-- When the queue is empty the results are those of all routes, each with its best score. -/
theorem Pruned.complete (h : Pruned net seen [] best scores) (hfactor : ∀ k e, 0 ≤ net.factor k e)
    (r : ρ) :
    (∀ x, scores r = some x → IsGreatest {y | Found net r y} x) ∧
      ((∃ y, Found net r y) → ∃ x, scores r = some x) := by
  have hcovers : ∀ y, Found net r y → ∃ x, scores r = some x ∧ y ≤ x := by
    rintro y ⟨n, k, z, e, hroute, hn, he, rfl, rfl⟩
    obtain ⟨p, hp, rfl, hhops, hle⟩ := h.dominated hfactor hroute hn.le
    obtain ⟨x, hx, hle'⟩ := h.covered p hp (by omega) e he
    exact ⟨x, hx, (mul_le_mul_of_nonneg_right hle (hfactor _ e)).trans hle'⟩
  refine ⟨fun x hx => ⟨h.found r x hx, fun y hy => ?_⟩, fun ⟨y, hy⟩ => ?_⟩
  · obtain ⟨x', hx', hle⟩ := hcovers y hy
    rw [hx] at hx'
    exact (Option.some.inj hx') ▸ hle
  · obtain ⟨x, hx, _⟩ := hcovers y hy
    exact ⟨x, hx⟩

/-- The scores of routes stay within the unit interval when the factors do. -/
theorem Route.mem_unit {n : Nat} {k : κ} {x : α} (h : Route net n k x)
    (hfactor : ∀ k e, 0 < net.factor k e ∧ net.factor k e ≤ 1) : 0 < x ∧ x ≤ 1 := by
  induction h with
  | start => exact ⟨zero_lt_one, le_refl 1⟩
  | @step n k k' x e _ _ _ ih =>
    exact ⟨mul_pos ih.1 (hfactor k e).1, mul_le_one₀ ih.2 (hfactor k e).1.le (hfactor k e).2⟩

end

end AmlReal.Foundations.BestRoutes
