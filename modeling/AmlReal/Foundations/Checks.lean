/-! # Computations that fail with an error

The checks a fallible function is made of, and the inversion of each: what a
successful result says about the steps that led to it. -/

namespace AmlReal.Foundations.Checks

section
variable {ε α β : Type}

/-- `Option::context` -/
def context (value : Option α) (error : ε) : Except ε α := value.elim (.error error) .ok

def ensure (condition : Prop) [Decidable condition] (error : ε) : Except ε Unit :=
  if condition then .ok () else .error error

@[simp] theorem context_some (a : α) (error : ε) : context (some a) error = .ok a := rfl

theorem ok_bind (a : α) (f : α → Except ε β) : (.ok a >>= f) = f a := rfl

theorem context_ok {value : Option α} {error : ε} {a : α} (h : context value error = .ok a) :
    value = some a := by
  cases value with
  | none => cases h
  | some b => exact congrArg some (Except.ok.inj h)

theorem ensure_ok {c : Prop} [Decidable c] {error : ε} {u : Unit} (h : ensure c error = .ok u) :
    c := by
  unfold ensure at h
  split at h
  · assumption
  · cases h

theorem ensure_eq {c : Prop} [Decidable c] {error : ε} (h : c) : ensure c error = .ok () :=
  if_pos h

theorem ok_get {r : Except ε α} (h : r.toOption.isSome) : r = .ok (r.toOption.get h) := by
  cases r with
  | error e => cases h
  | ok a => rfl

theorem bind_ok {r : Except ε α} {f : α → Except ε β} {b : β} (h : (r >>= f) = .ok b) :
    ∃ a, r = .ok a ∧ f a = .ok b := by
  cases r with
  | error e => cases h
  | ok a => exact ⟨a, rfl, h⟩

theorem map_ok {r : Except ε α} {f : α → β} {b : β} (h : f <$> r = .ok b) :
    ∃ a, r = .ok a ∧ f a = b := by
  cases r with
  | error e => cases h
  | ok a => exact ⟨a, rfl, Except.ok.inj h⟩

theorem forM_of {f : α → Except ε Unit} {xs : List α} (h : ∀ x ∈ xs, f x = .ok ()) : xs.forM f = .ok () := by
  induction xs with
  | nil => rfl
  | cons x xs ih =>
    obtain ⟨hx, hrest⟩ := List.forall_mem_cons.mp h
    show (f x >>= fun _ => xs.forM f) = .ok ()
    rw [hx, ok_bind, ih hrest]

theorem forM_ok {f : α → Except ε Unit} {xs : List α} (h : xs.forM f = .ok ()) :
    ∀ x ∈ xs, f x = .ok () := by
  induction xs with
  | nil => intro x hx; cases hx
  | cons x xs ih =>
    obtain ⟨_, hx, hrest⟩ := bind_ok h
    intro y hy
    rcases List.mem_cons.mp hy with rfl | hy
    · exact hx
    · exact ih hrest y hy

theorem length_of_mapM {f : α → Except ε β} {xs : List α} {ys : List β}
    (h : xs.mapM f = .ok ys) : ys.length = xs.length := by
  induction xs generalizing ys with
  | nil => cases h; rfl
  | cons x xs ih =>
    rw [List.mapM_cons] at h
    obtain ⟨y, _, h⟩ := bind_ok h
    obtain ⟨rest, hrest, h⟩ := bind_ok h
    cases h
    simp [ih hrest]

theorem mem_of_mapM {f : α → Except ε β} {xs : List α} {ys : List β} (h : xs.mapM f = .ok ys) :
    ∀ y ∈ ys, ∃ x ∈ xs, f x = .ok y := by
  induction xs generalizing ys with
  | nil => cases h; intro y hy; cases hy
  | cons x xs ih =>
    rw [List.mapM_cons] at h
    obtain ⟨y, hx, h⟩ := bind_ok h
    obtain ⟨rest, hrest, h⟩ := bind_ok h
    cases h
    intro z hz
    rcases List.mem_cons.mp hz with rfl | hz
    · exact ⟨x, by simp, hx⟩
    · obtain ⟨w, hw, hf⟩ := ih hrest z hz
      exact ⟨w, by simp [hw], hf⟩

theorem ok_of_mapM {f : α → Except ε β} {xs : List α} {ys : List β} (h : xs.mapM f = .ok ys) :
    ∀ x ∈ xs, ∃ y, f x = .ok y := by
  induction xs generalizing ys with
  | nil => intro x hx; cases hx
  | cons x xs ih =>
    rw [List.mapM_cons] at h
    obtain ⟨y, hx, h⟩ := bind_ok h
    obtain ⟨rest, hrest, _⟩ := bind_ok h
    exact List.forall_mem_cons.mpr ⟨⟨y, hx⟩, ih hrest⟩

/-- A mapping whose results are those of a function is that function's. -/
theorem mapM_eq_map {f : α → Except ε β} {g : α → β} (hg : ∀ x y, f x = .ok y → y = g x)
    {xs : List α} {ys : List β} (h : xs.mapM f = .ok ys) : ys = xs.map g := by
  induction xs generalizing ys with
  | nil => cases h; rfl
  | cons x xs ih =>
    rw [List.mapM_cons] at h
    obtain ⟨y, hx, h⟩ := bind_ok h
    obtain ⟨rest, hrest, h⟩ := bind_ok h
    cases h
    rw [List.map_cons, hg x y hx, ih hrest]

theorem ok_of_foldlM {f : β → α → Except ε β} {xs : List α} {s s' : β}
    (h : xs.foldlM f s = .ok s') : ∀ x ∈ xs, ∃ t t', f t x = .ok t' := by
  induction xs generalizing s with
  | nil => intro x hx; cases hx
  | cons x xs ih =>
    rw [List.foldlM_cons] at h
    obtain ⟨mid, hx, hrest⟩ := bind_ok h
    exact List.forall_mem_cons.mpr ⟨⟨s, mid, hx⟩, ih hrest⟩

end

end AmlReal.Foundations.Checks
