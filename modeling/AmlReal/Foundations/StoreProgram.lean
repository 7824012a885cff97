import Mathlib.Data.List.Infix

/-! # Writer programs over an append-only store

A program reads the whole store in single queries and changes it only by
inserts. Its execution is the list of inserts it makes, in order, and how it
ends. A crash stops the program between two steps, so what a crashed program
leaves behind is a prefix of those inserts: `Writes p s ws` says that `p`,
started on `s`, may have made exactly the inserts `ws` when it stopped, by
crashing, by failing or by returning. The rules below take a program apart in
the order of its steps; the last section lifts a step lemma to runs of many
programs, one after another. -/

namespace AmlReal.Foundations.StoreProgram

/-- A store that inserts append to. -/
class LogStore (σ : Type) (ω : outParam Type) where
  append : σ → ω → σ

inductive Program (σ ω ε α : Type) where
  | done (value : α)
  | fail (error : ε)
  | query (next : σ → Program σ ω ε α)
  | insert (write : ω) (next : Program σ ω ε α)

/-- The store after a list of inserts. -/
def replay {σ ω : Type} [LogStore σ ω] (s : σ) (ws : List ω) : σ := ws.foldl LogStore.append s

namespace Program
variable {σ ω ε α β : Type}

def bind : Program σ ω ε α → (α → Program σ ω ε β) → Program σ ω ε β
  | .done a, f => f a
  | .fail e, _ => .fail e
  | .query k, f => .query fun s => (k s).bind f
  | .insert w k, f => .insert w (k.bind f)

instance : Monad (Program σ ω ε) where
  pure := .done
  bind := bind

/-- One query: the value of `view` on the store as it stands. -/
def read (view : σ → α) : Program σ ω ε α := .query fun s => .done (view s)

/-- One insert. -/
def write (w : ω) : Program σ ω ε Unit := .insert w (.done ())

def ensure (condition : Prop) [Decidable condition] (error : ε) : Program σ ω ε Unit :=
  if condition then .done () else .fail error

def when (condition : Prop) [Decidable condition] (p : Program σ ω ε Unit) : Program σ ω ε Unit :=
  if condition then p else .done ()

/-- A computation that does not touch the store. -/
def lift : Except ε α → Program σ ω ε α
  | .ok a => .done a
  | .error e => .fail e

def mapError {ε' : Type} (f : ε → ε') : Program σ ω ε α → Program σ ω ε' α
  | .done a => .done a
  | .fail e => .fail (f e)
  | .query k => .query fun s => (k s).mapError f
  | .insert w k => .insert w (k.mapError f)

/-- The program with its outcome as a value. -/
def attempt : Program σ ω ε α → Program σ ω ε (Except ε α)
  | .done a => .done (.ok a)
  | .fail e => .done (.error e)
  | .query k => .query fun s => (k s).attempt
  | .insert w k => .insert w k.attempt

variable [LogStore σ ω]

/-- The inserts a program makes from a store when nothing stops it, and its outcome. -/
def exec : Program σ ω ε α → σ → List ω × Except ε α
  | .done a, _ => ([], .ok a)
  | .fail e, _ => ([], .error e)
  | .query k, s => (k s).exec s
  | .insert w k, s => let rest := k.exec (LogStore.append s w); (w :: rest.1, rest.2)

end Program

open Program

section
variable {σ ω ε α : Type} [LogStore σ ω]

/-- The program made exactly the inserts `ws` before it stopped. -/
def Writes (p : Program σ ω ε α) (s : σ) (ws : List ω) : Prop := ws <+: (p.exec s).1

/-- The program made the inserts `ws` and returned `a`. -/
def Returns (p : Program σ ω ε α) (s : σ) (ws : List ω) (a : α) : Prop := p.exec s = (ws, .ok a)

end

section
variable {σ ω : Type} [LogStore σ ω]

@[simp] theorem replay_nil (s : σ) : replay s ([] : List ω) = s := rfl
@[simp] theorem replay_cons (s : σ) (w : ω) (ws : List ω) :
    replay s (w :: ws) = replay (LogStore.append s w) ws := rfl
theorem replay_append (s : σ) (ws vs : List ω) : replay s (ws ++ vs) = replay (replay s ws) vs :=
  List.foldl_append ..

/-- What every one of the inserts keeps holds after them. -/
theorem replay_keeps {K : σ → Prop} {s : σ} {ws : List ω}
    (h : ∀ w ∈ ws, ∀ t, K t → K (LogStore.append t w)) (hs : K s) : K (replay s ws) := by
  induction ws generalizing s with
  | nil => exact hs
  | cons w ws ih => exact ih (fun v hv => h v (by simp [hv])) (h w (by simp) s hs)

/-- A table that every insert appends its rows of the table to. -/
theorem replay_table {ρ : Type} {table : σ → List ρ} {rows : ω → List ρ}
    (h : ∀ s w, table (LogStore.append s w) = table s ++ rows w) (s : σ) (ws : List ω) :
    table (replay s ws) = table s ++ ws.flatMap rows := by
  induction ws generalizing s with
  | nil => simp
  | cons w ws ih => rw [replay_cons, ih, h, List.flatMap_cons, List.append_assoc]

end

/-! ## Taking a program apart -/

section
variable {σ ω ε α β : Type} [LogStore σ ω] {s : σ} {ws : List ω}

theorem exec_bind (p : Program σ ω ε α) (f : α → Program σ ω ε β) (s : σ) :
    (p >>= f).exec s = match p.exec s with
      | (ws, .ok a) => (ws ++ ((f a).exec (replay s ws)).1, ((f a).exec (replay s ws)).2)
      | (ws, .error e) => (ws, .error e) := by
  induction p generalizing s with
  | done a => rfl
  | fail e => rfl
  | query k ih => exact ih s s
  | insert w k ih =>
    have h := ih (LogStore.append s w)
    simp only [exec] at h ⊢
    change (w :: ((k >>= f).exec _).1, ((k >>= f).exec _).2) = _
    rw [h]
    rcases k.exec (LogStore.append s w) with ⟨vs, r⟩
    cases r <;> rfl

theorem exec_read (view : σ → α) (f : α → Program σ ω ε β) (s : σ) :
    (read view >>= f).exec s = (f (view s)).exec s := rfl

theorem Returns.writes {p : Program σ ω ε α} {a : α} (h : Returns p s ws a) : Writes p s ws := by
  unfold Writes; rw [h]

theorem Returns.bind {p : Program σ ω ε α} {f : α → Program σ ω ε β} {b : β}
    (h : Returns (p >>= f) s ws b) : ∃ first a rest, ws = first ++ rest ∧
      Returns p s first a ∧ Returns (f a) (replay s first) rest b := by
  unfold Returns at *
  rw [exec_bind] at h
  rcases hp : p.exec s with ⟨first, r⟩
  rw [hp] at h
  cases r with
  | error e => exact absurd (congrArg Prod.snd h) (by simp)
  | ok a =>
    obtain ⟨h1, h2⟩ := Prod.mk.inj h
    exact ⟨first, a, _, h1.symm, rfl, Prod.ext rfl h2⟩

theorem Returns.then {p : Program σ ω ε α} {f : α → Program σ ω ε β} {a : α} {b : β}
    {rest : List ω} (h : Returns p s ws a) (hrest : Returns (f a) (replay s ws) rest b) :
    Returns (p >>= f) s (ws ++ rest) b := by
  unfold Returns at *
  rw [exec_bind, h]
  simp only [hrest]

/-- A first part that inserts nothing leaves the store to the second. -/
theorem Returns.next {p : Program σ ω ε α} {f : α → Program σ ω ε β} {a : α} {b : β}
    (h : Returns p s [] a) (hrest : Returns (f a) s ws b) : Returns (p >>= f) s ws b :=
  h.then hrest

theorem Returns.fails {p : Program σ ω ε α} {f : α → Program σ ω ε β} {a : α} {e : ε}
    (h : Returns p s [] a) (hrest : (f a).exec s = ([], .error e)) :
    (p >>= f).exec s = ([], .error e) := by
  unfold Returns at h
  rw [exec_bind, h]
  show ([] ++ ((f a).exec s).1, ((f a).exec s).2) = _
  rw [hrest]
  rfl

theorem read_returns (view : σ → α) : Returns (read view : Program σ ω ε α) s [] (view s) := rfl

theorem lift_returns (a : α) : Returns (lift (.ok a) : Program σ ω ε α) s [] a := rfl

theorem ensure_returns {c : Prop} [Decidable c] {e : ε} (h : c) :
    Returns (ensure c e : Program σ ω ε Unit) s [] () := by
  unfold ensure
  rw [if_pos h]
  rfl

theorem ensure_fails {c : Prop} [Decidable c] {e : ε} {f : Unit → Program σ ω ε β} (h : ¬ c) :
    (ensure c e >>= f).exec s = ([], .error e) := by
  unfold ensure
  rw [if_neg h]
  rfl

theorem when_returns {c : Prop} [Decidable c] {p : Program σ ω ε Unit} (h : c)
    (hp : Returns p s ws ()) : Returns (Program.when c p) s ws () := by
  unfold Program.when
  rw [if_pos h]
  exact hp

theorem when_skips {c : Prop} [Decidable c] {p : Program σ ω ε Unit} (h : ¬ c) :
    Returns (Program.when c p) s [] () := by
  unfold Program.when
  rw [if_neg h]
  rfl

theorem forM_write_returns {γ : Type} (mk : γ → ω) (xs : List γ) :
    Returns (xs.forM fun x => (write (mk x) : Program σ ω ε Unit)) s (xs.map mk) () := by
  induction xs generalizing s with
  | nil => rfl
  | cons x xs ih =>
    have hfirst : Returns (write (mk x) : Program σ ω ε Unit) s [mk x] () := rfl
    exact hfirst.then ih

/-- A bind stopped inside its first part, or ran it to the end and stopped in its second. -/
theorem Writes.bind {p : Program σ ω ε α} {f : α → Program σ ω ε β}
    (h : Writes (p >>= f) s ws) : Writes p s ws ∨ ∃ first a rest, ws = first ++ rest ∧
      Returns p s first a ∧ Writes (f a) (replay s first) rest := by
  unfold Writes Returns at *
  rw [exec_bind] at h
  rcases hp : p.exec s with ⟨first, r⟩
  rw [hp] at h
  cases r with
  | error e => exact Or.inl h
  | ok a =>
    rcases List.prefix_or_prefix_of_prefix h (List.prefix_append first _) with h | ⟨rest, rfl⟩
    · exact Or.inl h
    · exact Or.inr ⟨first, a, rest, rfl, rfl, (List.prefix_append_right_inj first).mp h⟩

theorem returns_pure {a b : α} (h : Returns (pure a : Program σ ω ε α) s ws b) :
    ws = [] ∧ a = b := by
  obtain ⟨h1, h2⟩ := Prod.mk.inj h
  exact ⟨h1.symm, Except.ok.inj h2⟩

theorem writes_pure {a : α} (h : Writes (pure a : Program σ ω ε α) s ws) : ws = [] :=
  List.prefix_nil.mp h

theorem returns_read {view : σ → α} {a : α} (h : Returns (read view : Program σ ω ε α) s ws a) :
    ws = [] ∧ a = view s := by
  obtain ⟨h1, h2⟩ := Prod.mk.inj h
  exact ⟨h1.symm, (Except.ok.inj h2).symm⟩

theorem returns_write {w : ω} {u : Unit} (h : Returns (write w : Program σ ω ε Unit) s ws u) :
    ws = [w] := (Prod.mk.inj h).1.symm

theorem returns_ensure {c : Prop} [Decidable c] {e : ε} {u : Unit}
    (h : Returns (ensure c e : Program σ ω ε Unit) s ws u) : ws = [] ∧ c := by
  unfold Returns ensure at h
  split at h
  · rename_i hc; exact ⟨(Prod.mk.inj h).1.symm, hc⟩
  · cases h

theorem returns_lift {r : Except ε α} {a : α} (h : Returns (lift r : Program σ ω ε α) s ws a) :
    ws = [] ∧ r = .ok a := by
  cases r with
  | error e => cases h
  | ok b =>
    obtain ⟨h1, h2⟩ := Prod.mk.inj h
    exact ⟨h1.symm, congrArg _ (Except.ok.inj h2)⟩

/-! A step that makes no insert either stops the program with nothing written
or hands its facts to the rest. -/

theorem writes_read {view : σ → α} {f : α → Program σ ω ε β}
    (h : Writes (read view >>= f) s ws) : Writes (f (view s)) s ws := h

theorem writes_ensure {c : Prop} [Decidable c] {e : ε} {f : Unit → Program σ ω ε β}
    (h : Writes (ensure c e >>= f) s ws) : ws = [] ∨ (c ∧ Writes (f ()) s ws) := by
  unfold ensure at h
  split at h
  · rename_i hc; exact Or.inr ⟨hc, h⟩
  · exact Or.inl (List.prefix_nil.mp h)

theorem writes_lift {r : Except ε α} {f : α → Program σ ω ε β}
    (h : Writes (lift r >>= f) s ws) : ws = [] ∨ ∃ a, r = .ok a ∧ Writes (f a) s ws := by
  cases r with
  | error e => exact Or.inl (List.prefix_nil.mp h)
  | ok a => exact Or.inr ⟨a, rfl, h⟩

theorem writes_write {w : ω} {f : Unit → Program σ ω ε β} (h : Writes (write w >>= f) s ws) :
    ws = [] ∨ ∃ rest, ws = w :: rest ∧ Writes (f ()) (LogStore.append s w) rest := by
  rcases List.prefix_cons_iff.mp h with h | ⟨rest, hws, hrest⟩
  · exact Or.inl h
  · exact Or.inr ⟨rest, hws, hrest⟩

theorem returns_when {c : Prop} [Decidable c] {p : Program σ ω ε Unit} {u : Unit}
    (h : Returns (Program.when c p) s ws u) : (c ∧ Returns p s ws u) ∨ (¬c ∧ ws = []) := by
  unfold Program.when at h
  split at h
  · rename_i hc; exact Or.inl ⟨hc, h⟩
  · rename_i hc; exact Or.inr ⟨hc, (returns_pure h).1⟩

theorem writes_when {c : Prop} [Decidable c] {p : Program σ ω ε Unit}
    (h : Writes (Program.when c p) s ws) : (c ∧ Writes p s ws) ∨ (¬c ∧ ws = []) := by
  unfold Program.when at h
  split at h
  · rename_i hc; exact Or.inl ⟨hc, h⟩
  · rename_i hc; exact Or.inr ⟨hc, writes_pure h⟩

theorem returns_forM_write {γ : Type} {mk : γ → ω} {xs : List γ} {u : Unit}
    (h : Returns (xs.forM fun x => (write (mk x) : Program σ ω ε Unit)) s ws u) :
    ws = xs.map mk := by
  induction xs generalizing s ws with
  | nil => exact (returns_pure h).1
  | cons x xs ih =>
    obtain ⟨first, _, rest, rfl, hfirst, hrest⟩ := h.bind
    rw [returns_write hfirst, ih hrest]; rfl

theorem writes_forM_write {γ : Type} {mk : γ → ω} {xs : List γ}
    (h : Writes (xs.forM fun x => (write (mk x) : Program σ ω ε Unit)) s ws) :
    ws <+: xs.map mk := by
  induction xs generalizing s ws with
  | nil => exact h
  | cons x xs ih =>
    rcases writes_write h with rfl | ⟨rest, rfl, hrest⟩
    · exact List.nil_prefix
    · exact List.cons_prefix_cons.mpr ⟨rfl, ih hrest⟩

end

/-! A program without inserts can only stop with nothing written or return. -/

section
variable {σ ω ε α β : Type} [LogStore σ ω] {s : σ} {ws : List ω}

def Quiet (p : Program σ ω ε α) : Prop := ∀ s, (p.exec s).1 = []

theorem quiet_pure (a : α) : Quiet (pure a : Program σ ω ε α) := fun _ => rfl

theorem quiet_read (view : σ → α) : Quiet (read view : Program σ ω ε α) := fun _ => rfl

theorem quiet_ensure (c : Prop) [Decidable c] (e : ε) :
    Quiet (ensure c e : Program σ ω ε Unit) := by
  intro s; unfold ensure; split <;> rfl

theorem quiet_lift (r : Except ε α) : Quiet (lift r : Program σ ω ε α) := by
  intro s; cases r <;> rfl

theorem Quiet.bind {p : Program σ ω ε α} {f : α → Program σ ω ε β} (hp : Quiet p)
    (hf : ∀ a, Quiet (f a)) : Quiet (p >>= f) := by
  intro s
  rw [exec_bind]
  rcases h : p.exec s with ⟨ws, r⟩
  have hws : ws = [] := by simpa [h] using hp s
  cases r with
  | error e => exact hws
  | ok a => simp [hws, hf a s]

theorem Quiet.when {p : Program σ ω ε Unit} (hp : Quiet p) (c : Prop) [Decidable c] :
    Quiet (Program.when c p) := by
  unfold Program.when
  split
  · exact hp
  · exact quiet_pure ()

theorem Quiet.forM {γ : Type} {f : γ → Program σ ω ε Unit} (hf : ∀ x, Quiet (f x))
    (xs : List γ) : Quiet (xs.forM f) := by
  induction xs with
  | nil => exact quiet_pure ()
  | cons x xs ih => exact (hf x).bind fun _ => ih

theorem Quiet.writes {p : Program σ ω ε α} (hp : Quiet p) (h : Writes p s ws) : ws = [] := by
  unfold Writes at h; rw [hp s] at h; exact List.prefix_nil.mp h

theorem Quiet.returns {p : Program σ ω ε α} {a : α} (hp : Quiet p) (h : Returns p s ws a) :
    ws = [] := hp.writes h.writes

theorem Writes.of_quiet_tail {p : Program σ ω ε α} {f : α → Program σ ω ε β}
    (hf : ∀ a, Quiet (f a)) (h : Writes (p >>= f) s ws) : Writes p s ws := by
  rcases h.bind with h | ⟨first, a, rest, rfl, hret, hrest⟩
  · exact h
  · rw [(hf a).writes hrest, List.append_nil]; exact hret.writes

theorem writes_quiet {p : Program σ ω ε α} {f : α → Program σ ω ε β} (hp : Quiet p)
    (h : Writes (p >>= f) s ws) : ws = [] ∨ ∃ a, Returns p s [] a ∧ Writes (f a) s ws := by
  rcases h.bind with h | ⟨first, a, rest, rfl, hret, hrest⟩
  · exact Or.inl (hp.writes h)
  · obtain rfl := hp.returns hret
    exact Or.inr ⟨a, hret, hrest⟩

theorem returns_forM_mem {γ : Type} {f : γ → Program σ ω ε Unit} (hf : ∀ x, Quiet (f x))
    {xs : List γ} {u : Unit} (h : Returns (xs.forM f) s ws u) :
    ∀ x ∈ xs, Returns (f x) s [] () := by
  induction xs generalizing ws with
  | nil => intro x hx; cases hx
  | cons x xs ih =>
    obtain ⟨first, _, rest, rfl, hfirst, hrest⟩ := h.bind
    obtain rfl := (hf x).returns hfirst
    intro y hy
    rcases List.mem_cons.mp hy with rfl | hy
    · exact hfirst
    · exact ih hrest y hy

end

/-! ## What a program can insert and fail with -/

section
variable {σ ω ε α β : Type}

/-- Every insert of the program is one of `P`, whatever it reads. -/
def Only (P : ω → Prop) : Program σ ω ε α → Prop
  | .done _ => True
  | .fail _ => True
  | .query k => ∀ s, Only P (k s)
  | .insert w k => P w ∧ Only P k

variable {P : ω → Prop}

theorem only_pure (a : α) : Only P (pure a : Program σ ω ε α) := trivial

theorem only_read (view : σ → α) : Only P (read view : Program σ ω ε α) := fun _ => trivial

theorem only_write {w : ω} (h : P w) : Only P (write w : Program σ ω ε Unit) := ⟨h, trivial⟩

theorem only_lift (r : Except ε α) : Only P (lift r : Program σ ω ε α) := by
  cases r <;> trivial

theorem only_ensure (c : Prop) [Decidable c] (e : ε) :
    Only P (ensure c e : Program σ ω ε Unit) := by
  unfold ensure; split <;> trivial

theorem Only.bind {p : Program σ ω ε α} {f : α → Program σ ω ε β} (hp : Only P p)
    (hf : ∀ a, Only P (f a)) : Only P (p >>= f) := by
  induction p with
  | done a => exact hf a
  | fail e => trivial
  | query k ih => exact fun s => ih s (hp s)
  | insert w k ih => exact ⟨hp.1, ih hp.2⟩

/-- What comes after a check may use it. -/
theorem only_ensure_bind {c : Prop} [Decidable c] {e : ε} {f : Unit → Program σ ω ε β}
    (h : c → Only P (f ())) : Only P (ensure c e >>= f) := by
  unfold ensure
  split
  · rename_i hc; exact h hc
  · trivial

theorem Only.when {p : Program σ ω ε Unit} (hp : Only P p) (c : Prop) [Decidable c] :
    Only P (Program.when c p) := by
  unfold Program.when
  split
  · exact hp
  · exact only_pure ()

theorem Only.forM {γ : Type} {f : γ → Program σ ω ε Unit} (hf : ∀ x, Only P (f x)) (xs : List γ) :
    Only P (xs.forM f) := by
  induction xs with
  | nil => exact only_pure ()
  | cons x xs ih => exact (hf x).bind fun _ => ih

theorem Only.mapError {ε' : Type} {f : ε → ε'} {p : Program σ ω ε α} (hp : Only P p) :
    Only P (p.mapError f) := by
  induction p with
  | done a => trivial
  | fail e => trivial
  | query k ih => exact fun s => ih s (hp s)
  | insert w k ih => exact ⟨hp.1, ih hp.2⟩

theorem Only.attempt {p : Program σ ω ε α} (hp : Only P p) : Only P p.attempt := by
  induction p with
  | done a => trivial
  | fail e => trivial
  | query k ih => exact fun s => ih s (hp s)
  | insert w k ih => exact ⟨hp.1, ih hp.2⟩

theorem Only.mono {P' : ω → Prop} {p : Program σ ω ε α} (hp : Only P p) (h : ∀ w, P w → P' w) :
    Only P' p := by
  induction p with
  | done a => trivial
  | fail e => trivial
  | query k ih => exact fun s => ih s (hp s)
  | insert w k ih => exact ⟨h w hp.1, ih hp.2⟩

theorem Only.writes [LogStore σ ω] {p : Program σ ω ε α} {s : σ} {ws : List ω} (hp : Only P p)
    (hws : Writes p s ws) : ∀ w ∈ ws, P w := by
  induction p generalizing s ws with
  | done a => obtain rfl := List.prefix_nil.mp hws; intro w hw; cases hw
  | fail e => obtain rfl := List.prefix_nil.mp hws; intro w hw; cases hw
  | query k ih => exact ih s (hp s) hws
  | insert v k ih =>
    rcases List.prefix_cons_iff.mp hws with rfl | ⟨rest, rfl, hrest⟩
    · intro w hw; cases hw
    · exact List.forall_mem_cons.mpr ⟨hp.1, ih hp.2 hrest⟩

end

section
variable {σ ω ε α β : Type} [LogStore σ ω] {P : ε → Prop}

/-- Whatever the program fails with is one of `P`. -/
def FailsWith (P : ε → Prop) (p : Program σ ω ε α) : Prop := ∀ s e, (p.exec s).2 = .error e → P e

theorem failsWith_pure (a : α) : FailsWith P (pure a : Program σ ω ε α) := by
  intro s e h; cases h

theorem failsWith_read (view : σ → α) : FailsWith P (read view : Program σ ω ε α) := by
  intro s e h; cases h

theorem failsWith_write (w : ω) : FailsWith P (write w : Program σ ω ε Unit) := by
  intro s e h; cases h

theorem failsWith_lift {r : Except ε α} (hr : ∀ e, r = .error e → P e) :
    FailsWith P (lift r : Program σ ω ε α) := by
  intro s e h
  cases r with
  | ok a => cases h
  | error e' => exact hr e (congrArg _ (Except.error.inj h))

theorem failsWith_ensure {c : Prop} [Decidable c] {e : ε} (he : P e) :
    FailsWith P (ensure c e : Program σ ω ε Unit) := by
  intro s e' h
  unfold ensure at h
  split at h
  · cases h
  · obtain rfl := Except.error.inj h
    exact he

theorem FailsWith.bind {p : Program σ ω ε α} {f : α → Program σ ω ε β} (hp : FailsWith P p)
    (hf : ∀ a, FailsWith P (f a)) : FailsWith P (p >>= f) := by
  intro s e h
  rw [exec_bind] at h
  rcases hexec : p.exec s with ⟨ws, r⟩
  rw [hexec] at h
  cases r with
  | ok a => exact hf a _ e h
  | error e' =>
    obtain rfl := Except.error.inj h
    exact hp s e' (by rw [hexec])

theorem exec_mapError {ε' : Type} (f : ε → ε') (p : Program σ ω ε α) (s : σ) :
    (p.mapError f).exec s = ((p.exec s).1, (p.exec s).2.mapError f) := by
  induction p generalizing s with
  | done a => rfl
  | fail e => rfl
  | query k ih => exact ih s s
  | insert w k ih =>
    have h := ih (LogStore.append s w)
    simp only [Program.mapError, exec] at h ⊢
    rw [h]

theorem FailsWith.mapError {ε' : Type} {f : ε → ε'} {P' : ε' → Prop} {p : Program σ ω ε α}
    (hp : FailsWith P p) (h : ∀ e, P e → P' (f e)) : FailsWith P' (p.mapError f) := by
  intro s e' hexec
  rw [exec_mapError] at hexec
  rcases hr : (p.exec s).2 with e | a
  · simp only [hr] at hexec
    obtain rfl := Except.error.inj hexec
    exact h e (hp s e hr)
  · simp only [hr] at hexec
    cases hexec

theorem FailsWith.forM {γ : Type} {f : γ → Program σ ω ε Unit} (hf : ∀ x, FailsWith P (f x))
    (xs : List γ) : FailsWith P (xs.forM f) := by
  induction xs with
  | nil => exact failsWith_pure ()
  | cons x xs ih => exact (hf x).bind fun _ => ih

end

/-! ## Rows written in chunks -/

section
variable {γ : Type}

/-- The rows in consecutive chunks of at most `n`; `fuel` bounds their number. -/
def chunksOf (n : Nat) : Nat → List γ → List (List γ)
  | 0, _ => []
  | _ + 1, [] => []
  | fuel + 1, x :: xs => (x :: xs).take n :: chunksOf n fuel ((x :: xs).drop n)

def chunks (n : Nat) (rows : List γ) : List (List γ) := chunksOf n rows.length rows

theorem chunksOf_flatten {n : Nat} (hn : 0 < n) (fuel : Nat) (rows : List γ)
    (h : rows.length ≤ fuel) : (chunksOf n fuel rows).flatten = rows := by
  induction fuel generalizing rows with
  | zero => obtain rfl := List.length_eq_zero_iff.mp (Nat.le_zero.mp h); rfl
  | succ fuel ih =>
    cases rows with
    | nil => rfl
    | cons x xs =>
      rw [chunksOf, List.flatten_cons, ih, List.take_append_drop]
      simp only [List.length_drop, List.length_cons] at h ⊢
      omega

theorem chunks_flatten {n : Nat} (hn : 0 < n) (rows : List γ) : (chunks n rows).flatten = rows :=
  chunksOf_flatten hn _ _ (Nat.le_refl _)

/-- Chunks of any size hold an initial part of the rows. -/
theorem chunksOf_flatten_prefix (n fuel : Nat) (rows : List γ) :
    (chunksOf n fuel rows).flatten <+: rows := by
  induction fuel generalizing rows with
  | zero => exact List.nil_prefix
  | succ fuel ih =>
    cases rows with
    | nil => exact List.nil_prefix
    | cons x xs =>
      obtain ⟨rest, hrest⟩ := ih ((x :: xs).drop n)
      refine ⟨rest, ?_⟩
      rw [chunksOf, List.flatten_cons, List.append_assoc, hrest, List.take_append_drop]

/-- Chunks of the rows, cut off anywhere, are an initial part of the rows. -/
theorem flatten_prefix_of_chunks {n : Nat} (hn : 0 < n) {rows : List γ} {cs : List (List γ)}
    (h : cs <+: chunks n rows) : cs.flatten <+: rows := by
  obtain ⟨rest, hrest⟩ := h
  exact ⟨rest.flatten, by rw [← List.flatten_append, hrest, chunks_flatten hn]⟩

end

/-! ## Runs of many programs -/

section
variable {σ ω : Type} [LogStore σ ω] (step : σ → List ω → Prop) (init : σ)

/-- Histories of operations that ran one after another from `init`; `step s ws`
says that some operation started on `s` may have stopped after the inserts `ws`. -/
inductive History : List (List ω) → Prop
  | nil : History []
  | concat {history : List (List ω)} {ws : List ω} : History history →
      step (replay init history.flatten) ws → History (history ++ [ws])

variable {step init}

theorem replay_concat (history : List (List ω)) (ws : List ω) :
    replay init (history ++ [ws]).flatten = replay (replay init history.flatten) ws := by
  rw [List.flatten_append, replay_append]; simp

/-- What holds initially and is kept by every operation, wherever it stops,
holds after every history. -/
theorem History.invariant {I : σ → Prop} {history : List (List ω)}
    (h : History step init history) (hinit : I init)
    (hstep : ∀ s ws, I s → step s ws → I (replay s ws)) :
    I (replay init history.flatten) := by
  induction h with
  | nil => exact hinit
  | concat _ hws ih => rw [replay_concat]; exact hstep _ _ ih hws

theorem History.mono {step' : σ → List ω → Prop} {history : List (List ω)}
    (h : History step init history) (himp : ∀ s ws, step s ws → step' s ws) :
    History step' init history := by
  induction h with
  | nil => exact .nil
  | concat _ hws ih => exact .concat ih (himp _ _ hws)

end

/-! ## Runs that record their operations -/

/-- An operation that ran and the inserts it made before it stopped. -/
structure Event (ι ω : Type) where
  operation : ι
  inserts : List ω

section
variable {σ ω ι : Type} [LogStore σ ω]

/-- The store after some events. -/
def replayEvents (s : σ) (events : List (Event ι ω)) : σ := replay s (events.flatMap Event.inserts)

/-- Sequences of events from `init`; `step s i ws` says that the operation `i`
started on `s` may have stopped after the inserts `ws`. -/
inductive Trace (step : σ → ι → List ω → Prop) (init : σ) : List (Event ι ω) → Prop
  | nil : Trace step init []
  | concat {events : List (Event ι ω)} {e : Event ι ω} : Trace step init events →
      step (replayEvents init events) e.operation e.inserts → Trace step init (events ++ [e])

variable {step : σ → ι → List ω → Prop} {init : σ}

@[simp] theorem replayEvents_nil (s : σ) : replayEvents s ([] : List (Event ι ω)) = s := rfl

theorem replayEvents_append (s : σ) (before after : List (Event ι ω)) :
    replayEvents s (before ++ after) = replayEvents (replayEvents s before) after := by
  unfold replayEvents; rw [List.flatMap_append, replay_append]

theorem replayEvents_concat (s : σ) (events : List (Event ι ω)) (e : Event ι ω) :
    replayEvents s (events ++ [e]) = replay (replayEvents s events) e.inserts := by
  rw [replayEvents_append]; unfold replayEvents; simp

theorem Trace.of_concat {events : List (Event ι ω)} {e : Event ι ω}
    (h : Trace step init (events ++ [e])) :
    Trace step init events ∧ step (replayEvents init events) e.operation e.inserts := by
  generalize hall : events ++ [e] = all at h
  cases h with
  | nil => simp at hall
  | concat h hstep =>
    obtain ⟨rfl, he⟩ := List.append_inj' hall rfl
    obtain rfl : e = _ := List.singleton_inj.mp he
    exact ⟨h, hstep⟩

/-- Every event of a trace was a step from what the events before it left. -/
theorem Trace.split {before after : List (Event ι ω)} {e : Event ι ω}
    (h : Trace step init (before ++ e :: after)) :
    Trace step init before ∧ step (replayEvents init before) e.operation e.inserts := by
  induction after using List.reverseRecOn with
  | nil => exact h.of_concat
  | append_singleton after last ih =>
    rw [← List.cons_append, ← List.append_assoc] at h
    exact ih h.of_concat.1

theorem mem_inserts_of_split {events : List (Event ι ω)} {w : ω}
    (h : w ∈ events.flatMap Event.inserts) :
    ∃ before e after, events = before ++ e :: after ∧ w ∈ e.inserts := by
  obtain ⟨e, he, hw⟩ := List.mem_flatMap.mp h
  obtain ⟨before, after, rfl⟩ := List.append_of_mem he
  exact ⟨before, e, after, rfl, hw⟩

/-- The events of given operations, of which each stops after a number of inserts. -/
def eventsOf {ε α : Type} (program : ι → Program σ ω ε α) : σ → List (ι × Nat) → List (Event ι ω)
  | _, [] => []
  | s, (i, made) :: rest =>
    let ws := ((program i).exec s).1.take made
    ⟨i, ws⟩ :: eventsOf program (replay s ws) rest

theorem trace_eventsOf {ε α : Type} (program : ι → Program σ ω ε α) {events : List (Event ι ω)}
    (h : Trace (fun s i ws => Writes (program i) s ws) init events) (ops : List (ι × Nat)) :
    Trace (fun s i ws => Writes (program i) s ws) init
      (events ++ eventsOf program (replayEvents init events) ops) := by
  induction ops generalizing events with
  | nil => simpa [eventsOf] using h
  | cons o rest ih =>
    obtain ⟨i, made⟩ := o
    have hnext := ih (h.concat (e := ⟨i, ((program i).exec _).1.take made⟩) (List.take_prefix ..))
    rwa [replayEvents_concat, List.append_assoc] at hnext

/-- A trace of steps that all satisfy more. -/
theorem Trace.strengthen {step' : σ → ι → List ω → Prop} {events : List (Event ι ω)}
    (h : Trace step init events)
    (himp : ∀ e ∈ events, ∀ s, step s e.operation e.inserts → step' s e.operation e.inserts) :
    Trace step' init events := by
  induction h with
  | nil => exact .nil
  | concat _ hstep ih =>
    refine .concat (ih fun e he => himp e (List.mem_append_left _ he)) (himp _ ?_ _ hstep)
    exact List.mem_append_right _ (List.mem_singleton_self _)

/-- What holds initially and is kept by every step holds after every trace. -/
theorem Trace.invariant {I : σ → Prop} {events : List (Event ι ω)} (h : Trace step init events)
    (hinit : I init) (hstep : ∀ s i ws, I s → step s i ws → I (replay s ws)) :
    I (replayEvents init events) := by
  induction h with
  | nil => exact hinit
  | concat _ hs ih => rw [replayEvents_concat]; exact hstep _ _ _ ih hs

end

end AmlReal.Foundations.StoreProgram
