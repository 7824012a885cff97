import Mathlib.Data.List.Perm.Subperm
import Mathlib.Data.List.Nodup
import Mathlib.Data.List.Flatten
import Mathlib.Logic.Relation

/-! # Searching a tree from a queue

The states of a search form a tree: each has results of its own and states to
look at next. A queue works through the tree; when a cut-off drops part of it,
a flag is set. Whatever was dropped, the results are results of the tree, and
with the flag clear and nothing left to do they are all of them, each once. -/

namespace AmlReal.Foundations.TreeSearch

structure Tree (σ ρ : Type) where
  out : σ → List ρ
  kids : σ → List σ
  height : σ → Nat
  lower : ∀ s, ∀ k ∈ kids s, height k < height s

namespace Tree
variable {σ ρ : Type} (t : Tree σ ρ)

/-- The results at a state and below it. -/
def all (s : σ) : List ρ :=
  t.out s ++ (t.kids s).attach.flatMap fun k => all k.1
termination_by t.height s
decreasing_by exact t.lower s k.1 k.2

theorem all_eq (s : σ) : t.all s = t.out s ++ (t.kids s).flatMap t.all := by
  rw [all, List.flatMap_subtype (g := t.all) (fun _ _ => rfl), List.unattach_attach]

theorem induction {P : σ → Prop} (step : ∀ s, (∀ k ∈ t.kids s, P k) → P s) (s : σ) : P s := by
  induction h : t.height s using Nat.strongRecOn generalizing s with
  | ind n ih => exact step s fun k hk => ih (t.height k) (h ▸ t.lower s k hk) k rfl

/-- States that the search can come to from `s`. -/
def Below : σ → σ → Prop := Relation.ReflTransGen fun s k => k ∈ t.kids s

theorem mem_all {s : σ} {r : ρ} : r ∈ t.all s ↔ ∃ k, t.Below s k ∧ r ∈ t.out k := by
  constructor
  · intro h
    induction s using t.induction with
    | step s ih =>
      rw [all_eq, List.mem_append, List.mem_flatMap] at h
      rcases h with hout | ⟨k, hk, hr⟩
      · exact ⟨s, .refl, hout⟩
      · obtain ⟨k', hbelow, hout⟩ := ih k hk hr
        exact ⟨k', hbelow.head hk, hout⟩
  · rintro ⟨k, hbelow, hout⟩
    induction hbelow using Relation.ReflTransGen.head_induction_on with
    | refl => rw [all_eq]; exact List.mem_append_left _ hout
    | head hk _ ih =>
      rw [all_eq]
      exact List.mem_append_right _ (List.mem_flatMap.mpr ⟨_, hk, ih⟩)

/-- Results come with the steps that led to them, and each state takes one more step. -/
structure Traced {ε : Type} (path : σ → List ε) (trail : ρ → List ε) : Prop where
  out : ∀ s, ∀ r ∈ t.out s, ∃ e, trail r = path s ++ [e]
  kids : ∀ s, ∀ k ∈ t.kids s, ∃ e, path k = path s ++ [e]
  distinct : ∀ s, ((t.kids s).map path).Nodup
  once : ∀ s, (t.out s).Nodup

namespace Traced
variable {t} {ε : Type} {path : σ → List ε} {trail : ρ → List ε}

theorem extends_path (h : t.Traced path trail) {s : σ} {r : ρ} (hr : r ∈ t.all s) :
    ∃ e rest, trail r = path s ++ e :: rest := by
  obtain ⟨k, hbelow, hout⟩ := t.mem_all.mp hr
  induction hbelow using Relation.ReflTransGen.head_induction_on with
  | refl =>
    obtain ⟨e, he⟩ := h.out _ r hout
    exact ⟨e, [], he⟩
  | @head s k' hk _ ih =>
    obtain ⟨e, rest, htrail⟩ := ih (t.mem_all.mpr ⟨_, ‹_›, hout⟩)
    obtain ⟨e', hpath⟩ := h.kids _ _ hk
    exact ⟨e', e :: rest, by rw [htrail, hpath, List.append_assoc]; rfl⟩

/-- A tree lists no result twice. -/
theorem nodup (h : t.Traced path trail) (s : σ) : (t.all s).Nodup := by
  induction s using t.induction with
  | step s ih =>
    rw [t.all_eq, List.nodup_append]
    refine ⟨h.once s, List.nodup_flatMap.mpr ⟨fun k hk => ih k hk, ?_⟩, ?_⟩
    · -- results below two states carry the different steps to these
      refine List.Pairwise.imp_of_mem ?_ (List.pairwise_map.mp (h.distinct s))
      intro k k' hk hk' hne r hr hr'
      obtain ⟨e, rest, htrail⟩ := h.extends_path hr
      obtain ⟨e', rest', htrail'⟩ := h.extends_path hr'
      obtain ⟨_, hpath⟩ := h.kids s k hk
      obtain ⟨_, hpath'⟩ := h.kids s k' hk'
      exact hne (List.append_inj (htrail.symm.trans htrail') (by rw [hpath, hpath']; simp)).1
    · intro r hr r' hr' heq
      subst heq
      obtain ⟨k, hk, hr'⟩ := List.mem_flatMap.mp hr'
      obtain ⟨e, htrail⟩ := h.out s r hr
      obtain ⟨e', rest, htrail'⟩ := h.extends_path hr'
      obtain ⟨_, hpath⟩ := h.kids s k hk
      have hlength := congrArg List.length (htrail.symm.trans htrail')
      rw [hpath] at hlength
      simp at hlength

end Traced

end Tree

/-! ## Progress of a search -/

section
variable {σ ρ : Type} {t : Tree σ ρ}

theorem flatMap_subperm {xs ys : List σ} {f : σ → List ρ} (h : xs.Subperm ys) :
    (xs.flatMap f).Subperm (ys.flatMap f) := by
  obtain ⟨zs, hperm, hsub⟩ := h
  exact ((hperm.symm.flatMap_right f).subperm).trans (hsub.flatMap f).subperm

/-- What has been found and what is still in the queue, measured against the whole tree. -/
structure Tracks (t : Tree σ ρ) (roots : List σ) (results : List ρ) (queue : List σ)
    (truncated : Bool) : Prop where
  sound : (results ++ queue.flatMap t.all).Subperm (roots.flatMap t.all)
  complete : truncated = false → (results ++ queue.flatMap t.all).Perm (roots.flatMap t.all)

namespace Tracks
variable {roots queue : List σ} {results : List ρ} {truncated : Bool}

theorem start (roots : List σ) : Tracks t roots [] roots false :=
  ⟨List.Subperm.refl _, fun _ => List.Perm.refl _⟩

/-- Looking at one state: its results and what lies below it, unless some are dropped and flagged. -/
theorem expand_all {s : σ} (h : Tracks t roots results (s :: queue) truncated) {out : List ρ}
    {kids : List σ} {flag : Bool} (hout : out.Subperm (t.out s))
    (hkids : (kids.flatMap t.all).Subperm ((t.kids s).flatMap t.all))
    (hflag : flag = false → truncated = false ∧ out.Perm (t.out s) ∧
      (kids.flatMap t.all).Perm ((t.kids s).flatMap t.all)) :
    Tracks t roots (results ++ out) (queue ++ kids) flag := by
  have hshape : (results ++ (s :: queue).flatMap t.all).Perm
      (results ++ t.out s ++ (queue.flatMap t.all ++ (t.kids s).flatMap t.all)) := by
    rw [List.flatMap_cons, t.all_eq, List.append_assoc, List.append_assoc]
    refine (List.Perm.append_left _ (List.Perm.append_left _ List.perm_append_comm)).trans ?_
    exact List.Perm.refl _
  have hnew : results ++ out ++ (queue ++ kids).flatMap t.all =
      results ++ out ++ (queue.flatMap t.all ++ kids.flatMap t.all) := by
    rw [List.flatMap_append]
  constructor
  · rw [hnew]
    have hpart := ((List.Subperm.refl results).append hout).append
      ((List.Subperm.refl (queue.flatMap t.all)).append hkids)
    exact hpart.trans (hshape.symm.subperm.trans h.sound)
  · intro hf
    obtain ⟨htr, ho, hk⟩ := hflag hf
    rw [hnew]
    have hpart := ((List.Perm.refl results).append ho).append
      ((List.Perm.refl (queue.flatMap t.all)).append hk)
    exact hpart.trans (hshape.symm.trans (h.complete htr))

/-- Looking at one state: its results and its next states, unless some are dropped and flagged. -/
theorem expand {s : σ} (h : Tracks t roots results (s :: queue) truncated) {out : List ρ}
    {kids : List σ} {flag : Bool} (hout : out.Subperm (t.out s)) (hkids : kids.Subperm (t.kids s))
    (hflag : flag = false → truncated = false ∧ out.Perm (t.out s) ∧ kids.Perm (t.kids s)) :
    Tracks t roots (results ++ out) (queue ++ kids) flag := by
  refine h.expand_all hout (flatMap_subperm hkids) fun hf => ?_
  obtain ⟨htr, ho, hk⟩ := hflag hf
  exact ⟨htr, ho, hk.flatMap_right t.all⟩

/-- Stopping early leaves results of the tree; the flag says that some may be missing. -/
theorem stop (h : Tracks t roots results queue truncated) : Tracks t roots results [] true := by
  refine ⟨?_, fun hf => by cases hf⟩
  rw [List.flatMap_nil, List.append_nil]
  exact (List.sublist_append_left _ _).subperm.trans h.sound

theorem results_subperm (h : Tracks t roots results queue truncated) :
    results.Subperm (roots.flatMap t.all) :=
  (List.sublist_append_left _ _).subperm.trans h.sound

theorem results_perm (h : Tracks t roots results [] false) : results.Perm (roots.flatMap t.all) := by
  have hperm := h.complete rfl
  rwa [List.flatMap_nil, List.append_nil] at hperm

end Tracks

/-! ## The order of a search -/

/-- Where every state is one step deeper than the state it comes from, a queue works through the
tree level by level. -/
structure Leveled (depth : σ → Nat) (length : ρ → Nat) (results : List ρ) (queue : List σ) : Prop where
  ordered : queue.Pairwise fun p q => depth p ≤ depth q
  close : ∀ p ∈ queue, ∀ q ∈ queue, depth q ≤ depth p + 1
  sorted : results.Pairwise fun p q => length p ≤ length q
  before : ∀ r ∈ results, ∀ q ∈ queue, length r ≤ depth q + 1

namespace Leveled
variable {depth : σ → Nat} {length : ρ → Nat} {results : List ρ} {queue : List σ}

theorem start (s : σ) : Leveled depth length ([] : List ρ) [s] where
  ordered := List.pairwise_singleton _ _
  close p hp q hq := by
    rw [List.mem_singleton.mp hp, List.mem_singleton.mp hq]
    exact Nat.le_succ _
  sorted := List.Pairwise.nil
  before _ hr := absurd hr List.not_mem_nil

theorem skip {s : σ} (h : Leveled depth length results (s :: queue)) :
    Leveled depth length results queue where
  ordered := (List.pairwise_cons.mp h.ordered).2
  close p hp q hq := h.close p (List.mem_cons_of_mem _ hp) q (List.mem_cons_of_mem _ hq)
  sorted := h.sorted
  before r hr q hq := h.before r hr q (List.mem_cons_of_mem _ hq)

theorem expand {s : σ} (h : Leveled depth length results (s :: queue)) {out : List ρ} {kids : List σ}
    (hout : ∀ r ∈ out, length r = depth s + 1) (hkids : ∀ k ∈ kids, depth k = depth s + 1) :
    Leveled depth length (results ++ out) (queue ++ kids) := by
  obtain ⟨hfirst, hordered⟩ := List.pairwise_cons.mp h.ordered
  have hrange : ∀ q ∈ queue ++ kids, depth s ≤ depth q ∧ depth q ≤ depth s + 1 := by
    intro q hq
    rcases List.mem_append.mp hq with hq | hq
    · exact ⟨hfirst q hq, h.close s (List.mem_cons_self ..) q (List.mem_cons_of_mem _ hq)⟩
    · have := hkids q hq
      omega
  refine ⟨List.pairwise_append.mpr ⟨hordered, ?_, fun p hp q hq => ?_⟩, fun p hp q hq => ?_,
    List.pairwise_append.mpr ⟨h.sorted, ?_, fun p hp r hr => ?_⟩, fun r hr q hq => ?_⟩
  · refine List.pairwise_of_forall_mem_list fun p hp q hq => ?_
    exact Nat.le_of_eq ((hkids p hp).trans (hkids q hq).symm)
  · rw [hkids q hq]
    exact (hrange p (List.mem_append_left _ hp)).2
  · have := hrange p hp
    have := hrange q hq
    omega
  · refine List.pairwise_of_forall_mem_list fun p hp q hq => ?_
    exact Nat.le_of_eq ((hout p hp).trans (hout q hq).symm)
  · rw [hout r hr]
    exact h.before p hp s (List.mem_cons_self ..)
  · have hq := hrange q hq
    rcases List.mem_append.mp hr with hr | hr
    · have := h.before r hr s (List.mem_cons_self ..)
      omega
    · rw [hout r hr]
      omega

end Leveled

end

end AmlReal.Foundations.TreeSearch
