import Mathlib.Order.Bounds.Basic

/-! # Propagating an interval through a chain of relations

A quantity moves along a chain of steps, each a relation between its value
before and after. A step's interval map is exact when it sends an interval to
precisely the values reachable from it; exact maps compose, so a fold over the
chain from a single value computes the least and the greatest value at its end
and everything between them is reached. -/

namespace AmlReal.Foundations.IntervalPropagation

section
variable {α σ ε : Type} {R : σ → α → α → Prop}

/-- `x` before the steps may be `y` after them. -/
inductive Reach (R : σ → α → α → Prop) : List σ → α → α → Prop
  | nil (x : α) : Reach R [] x x
  | cons {s : σ} {rest : List σ} {x y z : α} :
      R s x y → Reach R rest y z → Reach R (s :: rest) x z

theorem reach_nil {x y : α} : Reach R [] x y ↔ x = y :=
  ⟨fun h => by cases h; rfl, fun h => h ▸ .nil x⟩

theorem reach_cons {s : σ} {rest : List σ} {x z : α} :
    Reach R (s :: rest) x z ↔ ∃ y, R s x y ∧ Reach R rest y z :=
  ⟨fun h => by cases h with | cons hs hrest => exact ⟨_, hs, hrest⟩,
    fun ⟨_, hs, hrest⟩ => .cons hs hrest⟩

/-- A chain is reached exactly by the assignments of a value to every point
between its steps. -/
theorem reach_iff_assignment {steps : List σ} {x z : α} : Reach R steps x z ↔
    ∃ amount : Nat → α, amount 0 = x ∧ amount steps.length = z ∧
      ∀ i s, steps[i]? = some s → R s (amount i) (amount (i + 1)) := by
  induction steps generalizing x with
  | nil =>
    rw [reach_nil]
    exact ⟨fun h => ⟨fun _ => x, rfl, h, by simp⟩, fun ⟨_, h0, h1, _⟩ => h0.symm.trans h1⟩
  | cons s rest ih =>
    rw [reach_cons]
    constructor
    · rintro ⟨y, hs, hrest⟩
      obtain ⟨amount, h0, hlast, hstep⟩ := ih.mp hrest
      refine ⟨fun i => i.casesOn x amount, rfl, hlast, fun i t ht => ?_⟩
      cases i with
      | zero =>
        cases ht
        change R s x (amount 0)
        rw [h0]; exact hs
      | succ i => exact hstep i t ht
    · rintro ⟨amount, rfl, hlast, hstep⟩
      refine ⟨amount 1, hstep 0 s rfl, ih.mpr ⟨fun i => amount (i + 1), rfl, hlast, ?_⟩⟩
      exact fun i t ht => hstep (i + 1) t ht

variable [Preorder α]

/-- `J` holds exactly the values that the relation reaches from `I`. -/
structure Exact (R : α → α → Prop) (I J : α × α) : Prop where
  nonempty : J.1 ≤ J.2
  image : ∀ y, (∃ x, I.1 ≤ x ∧ x ≤ I.2 ∧ R x y) ↔ J.1 ≤ y ∧ y ≤ J.2

/-- An interval map that is exact for every step it accepts is exact for every
chain it accepts. -/
theorem exact_foldlM {f : σ → α × α → Except ε (α × α)}
    (hf : ∀ s I J, I.1 ≤ I.2 → f s I = .ok J → Exact (R s) I J) {steps : List σ} {I J : α × α}
    (hI : I.1 ≤ I.2) (h : steps.foldlM (fun I s => f s I) I = .ok J) :
    Exact (Reach R steps) I J := by
  induction steps generalizing I with
  | nil =>
    obtain rfl := Except.ok.inj h
    refine ⟨hI, fun y => ⟨?_, fun hy => ⟨y, hy.1, hy.2, .nil y⟩⟩⟩
    rintro ⟨x, hlow, hhigh, hreach⟩
    obtain rfl := reach_nil.mp hreach
    exact ⟨hlow, hhigh⟩
  | cons s rest ih =>
    rw [List.foldlM_cons] at h
    cases hs : f s I with
    | error e => rw [hs] at h; cases h
    | ok K =>
      rw [hs] at h
      have hfirst := hf s I K hI hs
      have hrest := ih hfirst.nonempty h
      refine ⟨hrest.nonempty, fun z => ?_⟩
      rw [← hrest.image z]
      constructor
      · rintro ⟨x, hlow, hhigh, hreach⟩
        obtain ⟨y, hxy, hyz⟩ := reach_cons.mp hreach
        obtain ⟨hlow', hhigh'⟩ := (hfirst.image y).mp ⟨x, hlow, hhigh, hxy⟩
        exact ⟨y, hlow', hhigh', hyz⟩
      · rintro ⟨y, hlow, hhigh, hyz⟩
        obtain ⟨x, hlow', hhigh', hxy⟩ := (hfirst.image y).mpr ⟨hlow, hhigh⟩
        exact ⟨x, hlow', hhigh', .cons hxy hyz⟩

variable {R' : α → α → Prop} {J : α × α}

/-- From a single value an exact interval is what can be reached. -/
theorem Exact.of_point {x : α} (h : Exact R' (x, x) J) (hx : ∀ y, x ≤ y → y ≤ x → y = x)
    (y : α) : R' x y ↔ J.1 ≤ y ∧ y ≤ J.2 := by
  rw [← h.image y]
  constructor
  · exact fun hy => ⟨x, le_rfl, le_rfl, hy⟩
  · rintro ⟨x', hlow, hhigh, hy⟩
    exact hx x' hlow hhigh ▸ hy

end

section
variable {α : Type} [PartialOrder α] {R : α → α → Prop} {x : α} {J : α × α}

theorem Exact.isLeast (h : Exact R (x, x) J) : IsLeast {y | R x y} J.1 := by
  have hpoint := h.of_point fun _ hle hge => le_antisymm hge hle
  exact ⟨(hpoint J.1).mpr ⟨le_rfl, h.nonempty⟩, fun y hy => ((hpoint y).mp hy).1⟩

theorem Exact.isGreatest (h : Exact R (x, x) J) : IsGreatest {y | R x y} J.2 := by
  have hpoint := h.of_point fun _ hle hge => le_antisymm hge hle
  exact ⟨(hpoint J.2).mpr ⟨h.nonempty, le_rfl⟩, fun y hy => ((hpoint y).mp hy).2⟩

theorem Exact.attained (h : Exact R (x, x) J) {y : α} (hlow : J.1 ≤ y) (hhigh : y ≤ J.2) :
    R x y :=
  (h.of_point (fun _ hle hge => le_antisymm hge hle) y).mpr ⟨hlow, hhigh⟩

end

end AmlReal.Foundations.IntervalPropagation
