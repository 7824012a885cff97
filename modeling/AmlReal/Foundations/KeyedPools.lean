import Mathlib.Logic.Relation
import AmlReal.Foundations.Interleaving

/-! # Programs that hold a key

A pool whose programs each hold a key, or none: no two hold the same key at one
time, and a key may be taken again once its program has stopped. What a program
relies on is given for its key, and every insert has to respect what is relied
on under the other keys. -/

namespace AmlReal.Foundations.KeyedPools
open AmlReal.Foundations.StoreProgram AmlReal.Foundations.StoreProgram.Program
open AmlReal.Foundations.Interleaving (Extends Under)

section
variable {σ ω ε α κ : Type} [LogStore σ ω]

structure Pool (σ ω ε α κ : Type) where
  store : σ
  running : List (Option κ × Program σ ω ε α)

inductive Step (start : Option κ → Program σ ω ε α → Prop) : Pool σ ω ε α κ → Pool σ ω ε α κ → Prop
  | launch {s : σ} {ps : List (Option κ × Program σ ω ε α)} {key : Option κ} {p : Program σ ω ε α} :
      start key p → (key ≠ none → ∀ q ∈ ps, q.1 ≠ key) → Step start ⟨s, ps⟩ ⟨s, (key, p) :: ps⟩
  | query {s : σ} {before after : List (Option κ × Program σ ω ε α)} {key : Option κ}
      {k : σ → Program σ ω ε α} :
      Step start ⟨s, before ++ (key, .query k) :: after⟩ ⟨s, before ++ (key, k s) :: after⟩
  | insert {s : σ} {before after : List (Option κ × Program σ ω ε α)} {key : Option κ} {w : ω}
      {k : Program σ ω ε α} :
      Step start ⟨s, before ++ (key, .insert w k) :: after⟩ ⟨LogStore.append s w, before ++ (key, k) :: after⟩
  | stop {s : σ} {before after : List (Option κ × Program σ ω ε α)} {q : Option κ × Program σ ω ε α} :
      Step start ⟨s, before ++ q :: after⟩ ⟨s, before ++ after⟩

abbrev Later (start : Option κ → Program σ ω ε α → Prop) : Pool σ ω ε α κ → Pool σ ω ε α κ → Prop :=
  Relation.ReflTransGen (Step start)

abbrev Reachable (start : Option κ → Program σ ω ε α → Prop) (init : σ) (pool : Pool σ ω ε α κ) : Prop :=
  Later start ⟨init, []⟩ pool

theorem Later.extends {start : Option κ → Program σ ω ε α → Prop} {pool next : Pool σ ω ε α κ}
    (h : Later start pool next) : Extends pool.store next.store := by
  induction h with
  | refl => exact Extends.refl _
  | tail _ hstep ih =>
    refine ih.trans ?_
    cases hstep with
    | launch => exact Extends.refl _
    | query => exact Extends.refl _
    | insert => exact Extends.append _ _
    | stop => exact Extends.refl _

/-- A program may run to its end while the others wait. -/
theorem Later.exec (start : Option κ → Program σ ω ε α → Prop) (key : Option κ) (p : Program σ ω ε α) (s : σ)
    (ps : List (Option κ × Program σ ω ε α)) :
    Later start ⟨s, (key, p) :: ps⟩ ⟨replay s (p.exec s).1, ps⟩ := by
  induction p generalizing s with
  | done a => exact .single (@Step.stop σ ω ε α κ _ start s [] ps _)
  | fail e => exact .single (@Step.stop σ ω ε α κ _ start s [] ps _)
  | query k ih => exact .head (@Step.query σ ω ε α κ _ start s [] ps key k) (ih s s)
  | insert w k ih => exact .head (@Step.insert σ ω ε α κ _ start s [] ps key w k) (ih (LogStore.append s w))

/-- After a program that ran alone the pool is empty again. -/
theorem Reachable.run {start : Option κ → Program σ ω ε α → Prop} {init s : σ} {key : Option κ}
    {p : Program σ ω ε α} (h : Reachable start init (⟨s, []⟩ : Pool σ ω ε α κ)) (hp : start key p) :
    Reachable start init (⟨replay s (p.exec s).1, []⟩ : Pool σ ω ε α κ) :=
  (h.tail (.launch hp fun _ q hq => by cases hq)).trans (Later.exec start key p s [])

/-- What is relied on holds of no change and of one change after another. -/
structure Rely (R : Option κ → σ → σ → Prop) : Prop where
  refl : ∀ key s, R key s s
  trans : ∀ key s t u, R key s t → R key t u → R key s u

/-- The insert keeps the invariant and what others rely on. -/
def Respects (I : σ → Prop) (R : Option κ → σ → σ → Prop) (key : Option κ) (s : σ) (w : ω) : Prop :=
  I (LogStore.append s w) ∧ ∀ other, other = none ∨ other ≠ key → R other s (LogStore.append s w)

/-- The program keeps the invariant as long as what it relies on holds. -/
abbrev Keeps (I : σ → Prop) (R : Option κ → σ → σ → Prop) (key : Option κ) (p : Program σ ω ε α) (s : σ) : Prop :=
  Under (R key) I (fun _ _ => True) (Respects I R key) (fun _ _ => True) p s

/-- Two keys differ, or one of them is none. -/
def Apart (key other : Option κ) : Prop := key = none ∨ key ≠ other

theorem Apart.symm {key other : Option κ} (h : Apart key other) : Apart other key := by
  rcases h with rfl | hne
  · by_cases hother : other = none
    · exact Or.inl hother
    · exact Or.inr hother
  · exact Or.inr (Ne.symm hne)

/-- Every pool is sound whose programs keep the invariant from wherever they start. -/
theorem Reachable.invariant {start : Option κ → Program σ ω ε α → Prop} {I : σ → Prop}
    {R : Option κ → σ → σ → Prop} {init : σ} {pool : Pool σ ω ε α κ} (h : Reachable start init pool)
    (hR : Rely R) (hinit : I init) (hstart : ∀ key p, start key p → ∀ s, I s → Keeps I R key p s) :
    I pool.store ∧ (pool.running.map Prod.fst).Pairwise Apart ∧
      ∀ q ∈ pool.running, ∃ s, R q.1 s pool.store ∧ Keeps I R q.1 q.2 s := by
  induction h with
  | refl => exact ⟨hinit, List.Pairwise.nil, by simp⟩
  | tail _ hstep ih =>
    obtain ⟨hI, happart, hrunning⟩ := ih
    cases hstep with
    | @launch t ps key p hp hfree =>
      refine ⟨hI, List.pairwise_cons.mpr ⟨fun other hother => ?_, happart⟩, ?_⟩
      · obtain ⟨q, hq, rfl⟩ := List.mem_map.mp hother
        by_cases hkey : key = none
        · exact Or.inl hkey
        · exact Or.inr fun heq => hfree hkey q hq heq.symm
      · exact List.forall_mem_cons.mpr ⟨⟨_, hR.refl _ _, hstart _ _ hp _ hI⟩, hrunning⟩
    | @query t before after key k =>
      rw [List.forall_mem_append, List.forall_mem_cons] at hrunning ⊢
      obtain ⟨hbefore, ⟨s, hs, hk⟩, hafter⟩ := hrunning
      refine ⟨hI, ?_, hbefore, ⟨_, hR.refl _ _, hk _ hs hI⟩, hafter⟩
      rw [List.map_append] at happart ⊢
      exact happart
    | @insert t before after key w k =>
      rw [List.forall_mem_append, List.forall_mem_cons] at hrunning ⊢
      obtain ⟨hbefore, ⟨s, hs, hk⟩, hafter⟩ := hrunning
      obtain ⟨⟨hI', hothers⟩, hk'⟩ := hk _ hs hI trivial
      rw [List.map_append] at happart
      obtain ⟨_, hmiddle, hacross⟩ := List.pairwise_append.mp happart
      have hkeep : ∀ q : Option κ × Program σ ω ε α, Apart q.1 key →
          (∃ s, R q.1 s t ∧ Keeps I R q.1 q.2 s) →
          ∃ s, R q.1 s (LogStore.append t w) ∧ Keeps I R q.1 q.2 s := by
        rintro q hq ⟨s, hs, hkeeps⟩
        exact ⟨s, hR.trans _ _ _ _ hs (hothers _ hq), hkeeps⟩
      refine ⟨hI', ?_, fun q hq => ?_, ⟨_, hR.refl _ _, hk'⟩, fun q hq => ?_⟩
      · rw [List.map_append]
        exact happart
      · exact hkeep q (hacross q.1 (List.mem_map_of_mem hq) key List.mem_cons_self) (hbefore q hq)
      · refine hkeep q (Apart.symm ?_) (hafter q hq)
        exact (List.pairwise_cons.mp hmiddle).1 q.1 (List.mem_map_of_mem hq)
    | @stop t before after q =>
      rw [List.forall_mem_append, List.forall_mem_cons] at hrunning
      refine ⟨hI, ?_, List.forall_mem_append.mpr ⟨hrunning.1, hrunning.2.2⟩⟩
      refine happart.sublist (List.Sublist.map _ ?_)
      exact List.Sublist.append_left (List.sublist_cons_self q after) before

end

end AmlReal.Foundations.KeyedPools
