import AmlReal.Foundations.SimplePaths

/-! # Paths kept as parents

A search that notes for each vertex it comes to the vertex it came from has, in
these notes, one path to each of them. A note keeps what `store` takes from the
edge. -/

namespace AmlReal.Foundations.ParentChains
open AmlReal.Foundations.SimplePaths

variable {α ε κ : Type} [BEq α] {store : ε → κ} {parents : List (α × α × κ)} {source a b : α}
  {w : Walk α ε}

variable (store parents source) in
/-- The notes lead from a vertex back along a path to the source. -/
inductive Leads : α → Walk α ε → Prop
  | source : Leads source (Walk.start source)
  | step {a b : α} {e : ε} {w : Walk α ε} (note : parents.lookup b = some (a, store e)) (hne : b ≠ source)
    (rest : Leads a w) : Leads b (w.extend e b)

theorem Leads.last (h : Leads store parents source a w) : w.vertices.getLast? = some a := by
  cases h with
  | source => rfl
  | step note hne rest => exact List.getLast?_concat ..

theorem Leads.length (h : Leads store parents source a w) : w.vertices.length = w.edges.length + 1 := by
  induction h with
  | source => rfl
  | step note hne rest ih => rw [Walk.extend, List.length_append, List.length_append, ih]; rfl

variable [LawfulBEq α]

/-- A note about a new vertex changes no path through the old ones. -/
theorem Leads.insert (h : Leads store parents source a w) {c : α} {note : α × κ} (hnew : c ∉ w.vertices) :
    Leads store ((c, note) :: parents) source a w := by
  induction h with
  | source => exact Leads.source
  | step found hne rest ih =>
    rename_i a b e w
    have hrest : c ∉ w.vertices := fun hc => hnew (List.mem_append_left _ hc)
    have hb : b ≠ c := fun heq => hnew (List.mem_append_right _ (List.mem_singleton.mpr heq.symm))
    refine Leads.step ?_ hne (ih hrest)
    rw [List.lookup_cons, beq_false_of_ne hb]
    exact found

end AmlReal.Foundations.ParentChains
