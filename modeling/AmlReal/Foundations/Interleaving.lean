import AmlReal.Foundations.StoreProgram

/-! # Programs that run side by side

A pool is a store with the programs running on it. Any of them may make its
next query or insert at any time, a new one may start, and one may stop for
good, by returning, failing or crashing. `Under R I A G Q p s` says that `p`,
having last looked at the store `s`, meets `G` with every insert, as long as
what others do between its steps is within `R` and keeps `I`, and its inserts
are allowed by `A`; `Q` holds of its result and the store it last saw. The rules
take a program apart in the order of its steps. -/

namespace AmlReal.Foundations.Interleaving
open AmlReal.Foundations.StoreProgram AmlReal.Foundations.StoreProgram.Program

section
variable {σ ω ε α : Type} [LogStore σ ω]

structure Pool (σ ω ε α : Type) where
  store : σ
  running : List (Program σ ω ε α)

inductive Step (start : Program σ ω ε α → Prop) (allowed : σ → ω → Prop) :
    Pool σ ω ε α → Pool σ ω ε α → Prop
  | launch {s : σ} {ps : List (Program σ ω ε α)} {p : Program σ ω ε α} :
      start p → Step start allowed ⟨s, ps⟩ ⟨s, p :: ps⟩
  | query {s : σ} {before after : List (Program σ ω ε α)} {k : σ → Program σ ω ε α} :
      Step start allowed ⟨s, before ++ .query k :: after⟩ ⟨s, before ++ k s :: after⟩
  | insert {s : σ} {before after : List (Program σ ω ε α)} {w : ω} {k : Program σ ω ε α} :
      allowed s w →
        Step start allowed ⟨s, before ++ .insert w k :: after⟩
          ⟨LogStore.append s w, before ++ k :: after⟩
  | stop {s : σ} {before after : List (Program σ ω ε α)} {p : Program σ ω ε α} :
      Step start allowed ⟨s, before ++ p :: after⟩ ⟨s, before ++ after⟩

inductive Reachable (start : Program σ ω ε α → Prop) (allowed : σ → ω → Prop) (init : σ) :
    Pool σ ω ε α → Prop
  | init : Reachable start allowed init ⟨init, []⟩
  | step {pool next : Pool σ ω ε α} : Reachable start allowed init pool →
      Step start allowed pool next → Reachable start allowed init next

/-- The store has grown by some inserts. -/
def Extends (s t : σ) : Prop := ∃ ws, t = replay s ws

theorem Extends.refl (s : σ) : Extends s s := ⟨[], rfl⟩

theorem Extends.trans {s t u : σ} (h : Extends s t) (h' : Extends t u) : Extends s u := by
  obtain ⟨ws, rfl⟩ := h
  obtain ⟨vs, rfl⟩ := h'
  exact ⟨ws ++ vs, (replay_append ..).symm⟩

theorem Extends.append (s : σ) (w : ω) : Extends s (LogStore.append s w) := ⟨[w], rfl⟩

/-- What every insert keeps holds of every later store. -/
theorem Extends.keep {P : σ → Prop} (hP : ∀ s w, P s → P (LogStore.append s w)) {s t : σ}
    (h : Extends s t) (hs : P s) : P t := by
  obtain ⟨ws, rfl⟩ := h
  induction ws generalizing s with
  | nil => exact hs
  | cons w ws ih => exact ih (hP s w hs)

def Under (R : σ → σ → Prop) (I : σ → Prop) (A G : σ → ω → Prop) (Q : α → σ → Prop) :
    Program σ ω ε α → σ → Prop
  | .done a, s => Q a s
  | .fail _, _ => True
  | .query k, s => ∀ t, R s t → I t → Under R I A G Q (k t) t
  | .insert w k, s => ∀ t, R s t → I t → A t w →
      G t w ∧ Under R I A G Q k (LogStore.append t w)

end

section
variable {σ ω ε α β : Type} [LogStore σ ω] {R : σ → σ → Prop} {I : σ → Prop} {A G : σ → ω → Prop}

theorem under_pure {a : α} {Q : α → σ → Prop} {s : σ} (h : Q a s) :
    Under R I A G Q (pure a : Program σ ω ε α) s := h

theorem Under.weaken {p : Program σ ω ε α} {Q Q' : α → σ → Prop} {s : σ}
    (h : Under R I A G Q p s) (hQ : ∀ a t, Q a t → Q' a t) : Under R I A G Q' p s := by
  induction p generalizing s with
  | done a => exact hQ a s h
  | fail e => trivial
  | query k ih => exact fun t ht hI => ih t (h t ht hI)
  | insert w k ih => exact fun t ht hI hA => ⟨(h t ht hI hA).1, ih (h t ht hI hA).2⟩

/-- The inserts meet whatever follows from what they meet. -/
theorem Under.guarantee {G' : σ → ω → Prop} {p : Program σ ω ε α} {Q : α → σ → Prop} {s : σ}
    (h : Under R I A G Q p s) (hG : ∀ t w, G t w → G' t w) : Under R I A G' Q p s := by
  induction p generalizing s with
  | done a => exact h
  | fail e => trivial
  | query k ih => exact fun t ht hI => ih t (h t ht hI)
  | insert w k ih =>
    exact fun t ht hI hA => ⟨hG t w (h t ht hI hA).1, ih (h t ht hI hA).2⟩

theorem Under.bind {p : Program σ ω ε α} {f : α → Program σ ω ε β} {Q : β → σ → Prop} {s : σ}
    (h : Under R I A G (fun a t => Under R I A G Q (f a) t) p s) :
    Under R I A G Q (p >>= f) s := by
  induction p generalizing s with
  | done a => exact h
  | fail e => trivial
  | query k ih => exact fun t ht hI => ih t (h t ht hI)
  | insert w k ih => exact fun t ht hI hA => ⟨(h t ht hI hA).1, ih (h t ht hI hA).2⟩

/-- What others and the program itself insert only adds to the store. -/
theorem Under.extends {p : Program σ ω ε α} {Q : α → σ → Prop} {s : σ}
    (hR : ∀ s t, R s t → Extends s t) (h : Under R I A G Q p s) :
    Under R I A G (fun a t => Q a t ∧ Extends s t) p s := by
  induction p generalizing s with
  | done a => exact ⟨h, Extends.refl s⟩
  | fail e => trivial
  | query k ih =>
    intro t ht hI
    exact (ih t (h t ht hI)).weaken fun _ _ hQ => ⟨hQ.1, (hR s t ht).trans hQ.2⟩
  | insert w k ih =>
    intro t ht hI hA
    refine ⟨(h t ht hI hA).1, (ih (h t ht hI hA).2).weaken fun _ _ hQ => ⟨hQ.1, ?_⟩⟩
    exact (hR s t ht).trans ((Extends.append t w).trans hQ.2)

theorem under_attempt {p : Program σ ω ε α} {Q : Except ε α → σ → Prop} {s : σ}
    (hR : ∀ s t, R s t → Extends s t) (h : Under R I A G (fun a t => Q (.ok a) t) p s)
    (herror : ∀ e t, Extends s t → Q (.error e) t) : Under R I A G Q p.attempt s := by
  induction p generalizing s with
  | done a => exact h
  | fail e => exact herror e s (Extends.refl s)
  | query k ih => exact fun t ht hI => ih t (h t ht hI) fun e u hu => herror e u ((hR s t ht).trans hu)
  | insert w k ih =>
    intro t ht hI hA
    refine ⟨(h t ht hI hA).1, ih (h t ht hI hA).2 fun e u hu => herror e u ?_⟩
    exact (hR s t ht).trans ((Extends.append t w).trans hu)

theorem Under.mapError {ε' : Type} {f : ε → ε'} {p : Program σ ω ε α} {Q : α → σ → Prop} {s : σ}
    (h : Under R I A G Q p s) : Under R I A G Q (p.mapError f) s := by
  induction p generalizing s with
  | done a => exact h
  | fail e => trivial
  | query k ih => exact fun t ht hI => ih t (h t ht hI)
  | insert w k ih => exact fun t ht hI hA => ⟨(h t ht hI hA).1, ih (h t ht hI hA).2⟩

theorem under_read {view : σ → α} {f : α → Program σ ω ε β} {Q : β → σ → Prop} {s : σ}
    (h : ∀ t, R s t → I t → Under R I A G Q (f (view t)) t) :
    Under R I A G Q (read view >>= f) s := h

theorem under_write {w : ω} {f : Unit → Program σ ω ε β} {Q : β → σ → Prop} {s : σ}
    (h : ∀ t, R s t → I t → A t w → G t w ∧ Under R I A G Q (f ()) (LogStore.append t w)) :
    Under R I A G Q (write w >>= f) s := h

theorem under_ensure {c : Prop} [Decidable c] {e : ε} {f : Unit → Program σ ω ε β}
    {Q : β → σ → Prop} {s : σ} (h : c → Under R I A G Q (f ()) s) :
    Under R I A G Q (ensure c e >>= f) s := by
  unfold ensure
  split
  · rename_i hc; exact h hc
  · trivial

theorem under_lift {r : Except ε α} {f : α → Program σ ω ε β} {Q : β → σ → Prop} {s : σ}
    (h : ∀ a, r = .ok a → Under R I A G Q (f a) s) : Under R I A G Q (lift r >>= f) s := by
  cases r with
  | ok a => exact h a rfl
  | error e => trivial

theorem under_when {c : Prop} [Decidable c] {p : Program σ ω ε Unit} {Q : Unit → σ → Prop} {s : σ}
    (h : c → Under R I A G Q p s) (h' : ¬c → Q () s) :
    Under R I A G Q (Program.when c p) s := by
  unfold Program.when
  split
  · rename_i hc; exact h hc
  · rename_i hc; exact h' hc

/-- A loop keeps what each of its rounds keeps. -/
theorem under_forM {γ : Type} {f : γ → Program σ ω ε Unit} {K : σ → Prop} {xs : List γ} {s : σ}
    (hs : K s) (h : ∀ x ∈ xs, ∀ t, K t → Under R I A G (fun _ u => K u) (f x) t) :
    Under R I A G (fun _ t => K t) (xs.forM f) s := by
  induction xs generalizing s with
  | nil => exact hs
  | cons x xs ih =>
    refine Under.bind ((h x (by simp) s hs).weaken fun _ t ht => ?_)
    exact ih ht fun y hy => h y (by simp [hy])

/-- What every insert that a program can make keeps holds when it returns. -/
theorem under_only {P : ω → Prop} {K : σ → Prop} {p : Program σ ω ε α} {s : σ} (h : Only P p)
    (hs : K s) (hR : ∀ s t, R s t → I t → K s → K t)
    (hK : ∀ t w, P w → I t → K t → G t w ∧ K (LogStore.append t w)) :
    Under R I A G (fun _ t => K t) p s := by
  induction p generalizing s with
  | done a => exact hs
  | fail e => trivial
  | query k ih => exact fun t ht hI => ih t (h t) (hR s t ht hI hs)
  | insert w k ih =>
    intro t ht hI _
    obtain ⟨hG, hnext⟩ := hK t w h.1 hI (hR s t ht hI hs)
    exact ⟨hG, ih h.2 hnext⟩

end

/-! ## Pools -/

section
variable {σ ω ε α : Type} [LogStore σ ω] {I : σ → Prop} {A : σ → ω → Prop}

/-- The program keeps the invariant while others add to the store. -/
abbrev Keeps (I : σ → Prop) (A : σ → ω → Prop) (Q : α → σ → Prop) (p : Program σ ω ε α) (s : σ) :
    Prop := Under Extends I A (fun t w => I (LogStore.append t w)) Q p s

/-- Every pool is sound whose programs keep the invariant from wherever they start. -/
theorem Reachable.invariant {start : Program σ ω ε α → Prop} {init : σ} {pool : Pool σ ω ε α}
    (h : Reachable start A init pool) (hinit : I init)
    (hstart : ∀ p, start p → ∀ s, I s → Keeps I A (fun _ _ => True) p s) :
    I pool.store ∧ ∀ p ∈ pool.running, ∃ s, Extends s pool.store ∧
      Keeps I A (fun _ _ => True) p s := by
  induction h with
  | init => exact ⟨hinit, by simp⟩
  | step _ hstep ih =>
    obtain ⟨hI, hrunning⟩ := ih
    cases hstep with
    | launch hp =>
      refine ⟨hI, List.forall_mem_cons.mpr ⟨⟨_, Extends.refl _, hstart _ hp _ hI⟩, hrunning⟩⟩
    | query =>
      rw [List.forall_mem_append, List.forall_mem_cons] at hrunning ⊢
      obtain ⟨hbefore, ⟨s, hs, hk⟩, hafter⟩ := hrunning
      exact ⟨hI, hbefore, ⟨_, Extends.refl _, hk _ hs hI⟩, hafter⟩
    | insert hA =>
      rw [List.forall_mem_append, List.forall_mem_cons] at hrunning ⊢
      obtain ⟨hbefore, ⟨s, hs, hk⟩, hafter⟩ := hrunning
      obtain ⟨hI', hk'⟩ := hk _ hs hI hA
      refine ⟨hI', fun p hp => ?_, ⟨_, Extends.refl _, hk'⟩, fun p hp => ?_⟩
      · obtain ⟨u, hu, hp⟩ := hbefore p hp
        exact ⟨u, hu.trans (Extends.append _ _), hp⟩
      · obtain ⟨u, hu, hp⟩ := hafter p hp
        exact ⟨u, hu.trans (Extends.append _ _), hp⟩
    | stop =>
      rw [List.forall_mem_append, List.forall_mem_cons] at hrunning
      exact ⟨hI, List.forall_mem_append.mpr ⟨hrunning.1, hrunning.2.2⟩⟩

/-! ## Programs that run alone -/

/-- Every insert of the list is allowed where it comes. -/
def AllowedAlong (A : σ → ω → Prop) : σ → List ω → Prop
  | _, [] => True
  | s, w :: ws => A s w ∧ AllowedAlong A (LogStore.append s w) ws

theorem allowedAlong_of_forall {ws : List ω} (hA : ∀ w ∈ ws, ∀ s, A s w) (s : σ) :
    AllowedAlong A s ws := by
  induction ws generalizing s with
  | nil => trivial
  | cons w ws ih => exact ⟨hA w (by simp) s, ih (fun v hv => hA v (by simp [hv])) _⟩

/-- A program whose inserts are allowed keeps the invariant wherever it stops,
when nothing else is inserted meanwhile. -/
theorem Under.invariant {R : σ → σ → Prop} {Q : α → σ → Prop} {p : Program σ ω ε α} {s : σ}
    {ws : List ω} (h : Under R I A (fun t w => I (LogStore.append t w)) Q p s) (hR : ∀ t, R t t)
    (hs : I s) (hws : Writes p s ws) (hA : AllowedAlong A s ws) : I (replay s ws) := by
  induction p generalizing s ws with
  | done a => obtain rfl := List.prefix_nil.mp hws; exact hs
  | fail e => obtain rfl := List.prefix_nil.mp hws; exact hs
  | query k ih => exact ih s (h s (hR s) hs) hs hws hA
  | insert w k ih =>
    rcases List.prefix_cons_iff.mp hws with rfl | ⟨rest, rfl, hrest⟩
    · exact hs
    · obtain ⟨hw, hk⟩ := h s (hR s) hs hA.1
      have hend := ih hk hw hrest hA.2
      exact hend

theorem Reachable.insert {start : Program σ ω ε α → Prop} {init s : σ}
    {ps : List (Program σ ω ε α)} {k : Program σ ω ε α} {w : ω}
    (h : Reachable start A init ⟨s, .insert w k :: ps⟩) (hw : A s w) :
    Reachable start A init ⟨LogStore.append s w, k :: ps⟩ :=
  h.step (@Step.insert σ ω ε α _ start A s [] ps w k hw)

/-- A program may run to its end while the others wait. -/
theorem Reachable.exec {start : Program σ ω ε α → Prop} {init s : σ}
    {ps : List (Program σ ω ε α)} {p : Program σ ω ε α} {ws : List ω}
    (h : Reachable start A init ⟨s, p :: ps⟩) (hws : ws <+: (p.exec s).1)
    (hallowed : AllowedAlong A s ws) : Reachable start A init ⟨replay s ws, ps⟩ := by
  induction p generalizing s ws with
  | done a =>
    obtain rfl := List.prefix_nil.mp hws
    exact h.step (@Step.stop σ ω ε α _ start A s [] ps _)
  | fail e =>
    obtain rfl := List.prefix_nil.mp hws
    exact h.step (@Step.stop σ ω ε α _ start A s [] ps _)
  | query k ih => exact ih s (h.step (@Step.query σ ω ε α _ start A s [] ps k)) hws hallowed
  | insert w k ih =>
    rcases List.prefix_cons_iff.mp hws with rfl | ⟨rest, rfl, hrest⟩
    · exact h.step (@Step.stop σ ω ε α _ start A s [] ps _)
    · have hend := ih (h.insert hallowed.1) hrest hallowed.2
      exact hend

end

section
variable {σ ω ε α β : Type} [LogStore σ ω] {G : σ → ω → Prop} {s : σ}

/-- What a program meets with its inserts and its result when nothing is
inserted beside it. -/
abbrev Alone (G : σ → ω → Prop) (Q : α → σ → Prop) (p : Program σ ω ε α) (s : σ) : Prop :=
  Under Eq (fun _ => True) (fun _ _ => True) G Q p s

theorem alone_read {view : σ → α} {f : α → Program σ ω ε β} {Q : β → σ → Prop}
    (h : Alone G Q (f (view s)) s) : Alone G Q (read view >>= f) s := by
  refine under_read ?_
  rintro _ rfl _
  exact h

theorem alone_write {w : ω} {f : Unit → Program σ ω ε β} {Q : β → σ → Prop} (hw : G s w)
    (h : Alone G Q (f ()) (LogStore.append s w)) : Alone G Q (write w >>= f) s := by
  refine under_write ?_
  rintro _ rfl _ _
  exact ⟨hw, h⟩

theorem alone_quiet {p : Program σ ω ε α} {Q : α → σ → Prop} (hp : Quiet p)
    (h : ∀ a, Returns p s [] a → Q a s) : Alone G Q p s := by
  have hs := hp s
  clear hp
  induction p with
  | done a => exact h a rfl
  | fail e => trivial
  | query k ih =>
    rintro _ rfl _
    exact ih s h hs
  | insert w k => cases hs

theorem alone_insert {w : ω} {Q : Unit → σ → Prop} (hw : G s w) (hQ : Q () (LogStore.append s w)) :
    Alone G Q (write w : Program σ ω ε Unit) s := by
  rintro _ rfl _ _
  exact ⟨hw, hQ⟩

/-- A failure too leaves what every insert keeps. -/
theorem alone_attempt {I : σ → Prop} {p : Program σ ω ε α} {Q : α → σ → Prop} (hs : I s)
    (h : Alone (fun t w => I (LogStore.append t w)) Q p s) :
    Alone (fun t w => I (LogStore.append t w))
      (fun r t => match r with
        | .ok a => Q a t
        | .error _ => I t) p.attempt s := by
  induction p generalizing s with
  | done a => exact h
  | fail e => exact hs
  | query k ih =>
    rintro _ rfl _
    exact ih s hs (h s rfl trivial)
  | insert w k ih =>
    rintro _ rfl _ _
    obtain ⟨hw, hk⟩ := h s rfl trivial trivial
    exact ⟨hw, ih hw hk⟩

theorem alone_only {P : ω → Prop} {K : σ → Prop} {p : Program σ ω ε α} (h : Only P p) (hs : K s)
    (hK : ∀ t w, P w → K t → G t w ∧ K (LogStore.append t w)) : Alone G (fun _ t => K t) p s := by
  refine under_only h hs ?_ fun t w hw _ => hK t w hw
  rintro _ _ rfl _ hs
  exact hs

/-- Of any program nothing can be asked. -/
theorem alone_any (p : Program σ ω ε α) (s : σ) : Alone (fun _ _ => True) (fun _ _ => True) p s := by
  induction p generalizing s with
  | done a => trivial
  | fail e => trivial
  | query k ih => exact fun t _ _ => ih t t
  | insert w k ih => exact fun t _ _ _ => ⟨trivial, ih _⟩

/-- What every insert keeps holds however the program ends. -/
theorem alone_ended {K : σ → Prop} {p : Program σ ω ε α} {Q : α → σ → Prop} (h : Alone G Q p s) (hs : K s)
    (hK : ∀ t w, G t w → K t → K (LogStore.append t w)) : Alone G (fun _ t => K t) p.attempt s := by
  induction p generalizing s with
  | done a => exact hs
  | fail e => exact hs
  | query k ih =>
    rintro _ rfl _
    exact ih _ (h _ rfl trivial) hs
  | insert w k ih =>
    rintro _ rfl _ _
    obtain ⟨hw, hk⟩ := h _ rfl trivial trivial
    exact ⟨hw, ih hk (hK _ w hw hs)⟩

theorem Under.allowedAlong {Q : α → σ → Prop} {p : Program σ ω ε α} {ws : List ω}
    (h : Alone G Q p s) (hws : Writes p s ws) : AllowedAlong G s ws := by
  induction p generalizing s ws with
  | done a => obtain rfl := List.prefix_nil.mp hws; trivial
  | fail e => obtain rfl := List.prefix_nil.mp hws; trivial
  | query k ih => exact ih s (h s rfl trivial) hws
  | insert w k ih =>
    rcases List.prefix_cons_iff.mp hws with rfl | ⟨rest, rfl, hrest⟩
    · trivial
    · obtain ⟨hw, hk⟩ := h s rfl trivial trivial
      exact ⟨hw, ih hk hrest⟩

theorem AllowedAlong.last {ws : List ω} {w : ω} (h : AllowedAlong G s (ws ++ [w])) :
    G (replay s ws) w := by
  induction ws generalizing s with
  | nil => exact h.1
  | cons v ws ih => exact ih h.2

/-- After inserts that end in none of `B`, whatever every other insert restores holds. -/
theorem AllowedAlong.restored {I : σ → Prop} {B : ω → Prop} {ws : List ω}
    (h : AllowedAlong (fun t w => ¬B w → I (LogStore.append t w)) s ws) (hs : I s)
    (hlast : ∀ w, ws.getLast? = some w → ¬B w) : I (replay s ws) := by
  induction ws using List.reverseRecOn generalizing s with
  | nil => exact hs
  | append_singleton ws w _ =>
    have hw : ∀ (vs : List ω) (t : σ),
        AllowedAlong (fun t w => ¬B w → I (LogStore.append t w)) t (vs ++ [w]) →
          I (replay t (vs ++ [w])) := by
      intro vs
      induction vs with
      | nil => exact fun t ht => ht.1 (hlast w (by simp))
      | cons v vs ih => exact fun t ht => ih _ ht.2
    exact hw ws s h

theorem Under.returns {Q : α → σ → Prop} {p : Program σ ω ε α} {ws : List ω} {a : α}
    (h : Alone G Q p s) (hret : Returns p s ws a) : Q a (replay s ws) := by
  induction p generalizing s ws with
  | done b =>
    obtain ⟨rfl, rfl⟩ := returns_pure hret
    exact h
  | fail e => cases hret
  | query k ih => exact ih s (h s rfl trivial) hret
  | insert w k ih =>
    obtain ⟨hws, ha⟩ := Prod.mk.inj hret
    subst hws
    have hk : Returns k (LogStore.append s w) (k.exec (LogStore.append s w)).1 a := Prod.ext rfl ha
    have hQ := ih (h s rfl trivial trivial).2 hk
    exact hQ

end

end AmlReal.Foundations.Interleaving
