import Mathlib.Data.List.Infix

/-! # Sessions of a process that checkpoints itself

A session works on a state in memory and saves frames to a disk as it goes. When
it fails, the changes made so far stay in memory. `Keeps I J P m Q` is its
specification: from a state with the invariant `I` and the precondition `P`, the
session leaves a state with `I` and saves only frames with `J`, however it ends,
and if it returns `a` then `Q a` holds of the state. -/

namespace AmlReal.Foundations.Checkpointed

structure Outcome (σ φ ε α : Type) where
  state : σ
  saved : List φ
  result : Except ε α

def Session (σ φ ε α : Type) : Type := σ → Outcome σ φ ε α

namespace Session
variable {σ φ ε α β : Type}

def bind (m : Session σ φ ε α) (f : α → Session σ φ ε β) : Session σ φ ε β := fun s =>
  match m s with
  | ⟨s, saved, .error e⟩ => ⟨s, saved, .error e⟩
  | ⟨s, saved, .ok a⟩ => ⟨(f a s).state, saved ++ (f a s).saved, (f a s).result⟩

instance : Monad (Session σ φ ε) where
  pure a := fun s => ⟨s, [], .ok a⟩
  bind := bind

def get : Session σ φ ε σ := fun s => ⟨s, [], .ok s⟩

def update (f : σ → σ) : Session σ φ ε Unit := fun s => ⟨f s, [], .ok ()⟩

/-- Saves a frame. -/
def emit (frame : φ) : Session σ φ ε Unit := fun s => ⟨s, [frame], .ok ()⟩

def lift (result : Except ε α) : Session σ φ ε α := fun s => ⟨s, [], result⟩

def ensure (condition : Prop) [Decidable condition] (error : ε) : Session σ φ ε Unit :=
  lift (if condition then .ok () else .error error)

def when (condition : Prop) [Decidable condition] (m : Session σ φ ε Unit) : Session σ φ ε Unit :=
  if condition then m else pure ()

/-- Runs the handler after an error; the error stays, unless the handler fails. -/
def onError (m : Session σ φ ε α) (handler : ε → Session σ φ ε Unit) : Session σ φ ε α := fun s =>
  match m s with
  | ⟨s, saved, .ok a⟩ => ⟨s, saved, .ok a⟩
  | ⟨s, saved, .error e⟩ => ⟨(handler e s).state, saved ++ (handler e s).saved,
      (handler e s).result.bind fun _ => .error e⟩

end Session

/-! ## Specifications -/

section
open Session
variable {σ φ ε α β : Type} (I : σ → Prop) (J : φ → Prop)

structure Outcome.Good (Q : α → σ → Prop) (o : Outcome σ φ ε α) : Prop where
  state : I o.state
  saved : ∀ frame ∈ o.saved, J frame
  result : ∀ a, o.result = .ok a → Q a o.state

def Keeps (P : σ → Prop) (m : Session σ φ ε α) (Q : α → σ → Prop) : Prop :=
  ∀ s, I s → P s → (m s).Good I J Q

variable {I J} {P : σ → Prop} {Q : α → σ → Prop} {m : Session σ φ ε α}

theorem keeps_pure {a : α} (h : ∀ s, I s → P s → Q a s) :
    Keeps I J P (pure a : Session σ φ ε α) Q := by
  intro s hI hP
  refine ⟨hI, by rintro _ ⟨⟩, ?_⟩
  rintro _ ⟨⟩
  exact h s hI hP

theorem Keeps.bind {f : α → Session σ φ ε β} {R : β → σ → Prop} (hm : Keeps I J P m Q)
    (hf : ∀ a, Keeps I J (Q a) (f a) R) : Keeps I J P (m >>= f) R := by
  intro s hI hP
  obtain ⟨hstate, hsaved, hresult⟩ := hm s hI hP
  change (Session.bind m f s).Good I J R
  unfold Session.bind
  rcases ho : m s with ⟨s', saved, r⟩
  rw [ho] at hstate hsaved hresult
  cases r with
  | error e => exact ⟨hstate, hsaved, by rintro _ ⟨⟩⟩
  | ok a =>
    obtain ⟨hstate', hsaved', hresult'⟩ := hf a s' hstate (hresult a rfl)
    refine ⟨hstate', ?_, hresult'⟩
    intro frame hframe
    exact (List.mem_append.mp hframe).elim (hsaved frame) (hsaved' frame)

theorem keeps_get : Keeps I J P (Session.get : Session σ φ ε σ) fun a s => a = s ∧ P s := by
  intro s hI hP
  refine ⟨hI, by rintro _ ⟨⟩, ?_⟩
  rintro _ ⟨⟩
  exact ⟨rfl, hP⟩

theorem keeps_update {f : σ → σ} {R : σ → Prop} (h : ∀ s, I s → P s → I (f s) ∧ R (f s)) :
    Keeps I J P (update f : Session σ φ ε Unit) fun _ s => R s := by
  intro s hI hP
  obtain ⟨hI', hR⟩ := h s hI hP
  exact ⟨hI', by rintro _ ⟨⟩, fun _ _ => hR⟩

theorem keeps_emit {frame : φ} (h : ∀ s, I s → P s → J frame) :
    Keeps I J P (emit frame : Session σ φ ε Unit) fun _ s => P s := by
  intro s hI hP
  refine ⟨hI, ?_, fun _ _ => hP⟩
  rintro f hf
  obtain rfl := List.mem_singleton.mp hf
  exact h s hI hP

theorem keeps_lift {r : Except ε α} :
    Keeps I J P (lift r : Session σ φ ε α) fun a s => r = .ok a ∧ P s := by
  intro s hI hP
  exact ⟨hI, by rintro _ ⟨⟩, fun a ha => ⟨ha, hP⟩⟩

theorem keeps_ensure {c : Prop} [Decidable c] {e : ε} :
    Keeps I J P (Session.ensure c e : Session σ φ ε Unit) fun _ s => c ∧ P s := by
  intro s hI hP
  refine ⟨hI, by rintro _ ⟨⟩, ?_⟩
  intro _ h
  by_cases hc : c
  · exact ⟨hc, hP⟩
  · change (if c then (Except.ok () : Except ε Unit) else .error e) = _ at h
    rw [if_neg hc] at h
    cases h

theorem Keeps.when {m : Session σ φ ε Unit} {c : Prop} [Decidable c] {R : σ → Prop}
    (hm : c → Keeps I J P m fun _ s => R s) (hskip : ¬c → ∀ s, I s → P s → R s) :
    Keeps I J P (Session.when c m) fun _ s => R s := by
  unfold Session.when
  split
  · exact hm ‹_›
  · exact keeps_pure (hskip ‹_›)

theorem Keeps.onError {handler : ε → Session σ φ ε Unit} (hm : Keeps I J P m Q)
    (hhandler : ∀ e, Keeps I J (fun _ => True) (handler e) fun _ _ => True) :
    Keeps I J P (m.onError handler) Q := by
  intro s hI hP
  obtain ⟨hstate, hsaved, hresult⟩ := hm s hI hP
  unfold Session.onError
  rcases ho : m s with ⟨s', saved, r⟩
  rw [ho] at hstate hsaved hresult
  cases r with
  | ok a => exact ⟨hstate, hsaved, hresult⟩
  | error e =>
    obtain ⟨hstate', hsaved', -⟩ := hhandler e s' hstate trivial
    refine ⟨hstate', ?_, ?_⟩
    · intro frame hframe
      exact (List.mem_append.mp hframe).elim (hsaved frame) (hsaved' frame)
    · intro a ha
      change ((handler e s').result.bind fun _ => Except.error e) = .ok a at ha
      cases hr : (handler e s').result with
      | error e' => rw [hr] at ha; cases ha
      | ok u => rw [hr] at ha; cases ha

theorem Keeps.weaken {P' : σ → Prop} {Q' : α → σ → Prop} (h : Keeps I J P m Q)
    (hP : ∀ s, I s → P' s → P s) (hQ : ∀ a s, I s → Q a s → Q' a s) : Keeps I J P' m Q' := by
  intro s hI hP'
  obtain ⟨hstate, hsaved, hresult⟩ := h s hI (hP s hI hP')
  exact ⟨hstate, hsaved, fun a ha => hQ a _ hstate (hresult a ha)⟩

end

end AmlReal.Foundations.Checkpointed
