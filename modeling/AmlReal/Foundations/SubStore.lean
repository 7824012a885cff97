import AmlReal.Foundations.Interleaving

/-! # Programs over a part of a store

A program written for one part of a store runs on the whole: its queries see
the part, and its inserts are marked as inserts into it. What the program meets
alone on the part it meets on the whole, and what no insert into the part can
change stays as it was. -/

namespace AmlReal.Foundations.SubStore
open AmlReal.Foundations.StoreProgram AmlReal.Foundations.Interleaving

section
variable {σ ω τ υ ε α : Type}

def within (view : τ → σ) (mark : ω → υ) : Program σ ω ε α → Program τ υ ε α
  | .done a => .done a
  | .fail e => .fail e
  | .query k => .query fun t => within view mark (k (view t))
  | .insert w k => .insert (mark w) (within view mark k)

variable [LogStore σ ω] [LogStore τ υ] {view : τ → σ} {mark : ω → υ}

/-- An insert into the part is that insert on the part. -/
def Marks (view : τ → σ) (mark : ω → υ) : Prop :=
  ∀ t w, view (LogStore.append t (mark w)) = LogStore.append (view t) w

theorem alone_within (hview : Marks view mark) {K : τ → Prop}
    (hK : ∀ t w, K t → K (LogStore.append t (mark w))) {G : σ → ω → Prop} {G' : τ → υ → Prop}
    (hG : ∀ t w, K t → G (view t) w → G' t (mark w)) {Q : α → σ → Prop} {p : Program σ ω ε α} {t : τ}
    (h : Alone G Q p (view t)) (ht : K t) :
    Alone G' (fun a u => Q a (view u) ∧ K u) (within view mark p) t := by
  induction p generalizing t with
  | done a => exact ⟨h, ht⟩
  | fail e => trivial
  | query k ih =>
    rintro _ rfl _
    exact ih _ (h _ rfl trivial) ht
  | insert w k ih =>
    rintro _ rfl _ _
    obtain ⟨hw, hk⟩ := h _ rfl trivial trivial
    refine ⟨hG t w ht hw, ih ?_ (hK t w ht)⟩
    rw [hview]
    exact hk

end

end AmlReal.Foundations.SubStore
