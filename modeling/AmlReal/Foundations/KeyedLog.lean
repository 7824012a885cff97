import Mathlib.Order.Lattice
import Mathlib.Data.List.Induction
import Mathlib.Logic.Function.Basic

/-! # Replaying a log of puts and deletes

A log is a list of entries, each of which sets the value of a key or deletes
it. Replaying takes the entries in order. Where the entries carry stamps that
agree with their order, what a key ends with can be read off its greatest stamp
alone, without going through the log. -/

namespace AmlReal.Foundations.KeyedLog

structure Entry (κ σ α : Type) where
  key : κ
  stamp : σ
  /-- none deletes the key -/
  value : Option α

/-! ## The order of a log -/

section
variable {κ σ α : Type} [LinearOrder σ]

/-- Of two entries of one key the later has the greater stamp, or they share it
and the earlier one deletes. -/
def Entry.Before (a b : Entry κ σ α) : Prop :=
  a.key = b.key → a.stamp < b.stamp ∨ (a.stamp = b.stamp ∧ a.value = none)

def Ordered (log : List (Entry κ σ α)) : Prop := log.Pairwise Entry.Before

theorem Entry.Before.put_ne {a b : Entry κ σ α} (h : a.Before b) (hput : a.value ≠ none)
    (hkey : a.key = b.key) : a.stamp ≠ b.stamp := by
  rcases h hkey with hlt | ⟨_, hnone⟩
  · exact ne_of_lt hlt
  · exact absurd hnone hput

/-- Two puts of one key under one stamp are the same entry. -/
theorem Ordered.put_unique {log : List (Entry κ σ α)} (hlog : Ordered log) {e f : Entry κ σ α}
    (he : e ∈ log) (hf : f ∈ log) (hkey : e.key = f.key) (hstamp : e.stamp = f.stamp)
    (hput : e.value ≠ none) (hput' : f.value ≠ none) : e = f := by
  induction log with
  | nil => cases he
  | cons first rest ih =>
    obtain ⟨hfirst, hrest⟩ := List.pairwise_cons.mp hlog
    rcases List.mem_cons.mp he with rfl | he'
    · rcases List.mem_cons.mp hf with rfl | hf'
      · rfl
      · exact absurd hstamp ((hfirst f hf').put_ne hput hkey)
    · rcases List.mem_cons.mp hf with rfl | hf'
      · exact absurd hstamp.symm ((hfirst e he').put_ne hput' hkey.symm)
      · exact ih hrest he' hf'

end

/-! ## Replay -/

section
variable {κ σ α : Type} [DecidableEq κ]

def Entry.apply (store : κ → Option α) (e : Entry κ σ α) : κ → Option α :=
  Function.update store e.key e.value

def replayFrom (store : κ → Option α) (log : List (Entry κ σ α)) : κ → Option α :=
  log.foldl Entry.apply store

def replay (log : List (Entry κ σ α)) : κ → Option α := replayFrom (fun _ => none) log

theorem replayFrom_append (store : κ → Option α) (log more : List (Entry κ σ α)) :
    replayFrom store (log ++ more) = replayFrom (replayFrom store log) more := List.foldl_append ..

theorem replay_concat (log : List (Entry κ σ α)) (e : Entry κ σ α) (k : κ) :
    replay (log ++ [e]) k = if k = e.key then e.value else replay log k := by
  unfold replay
  rw [replayFrom_append]
  exact Function.update_apply ..

/-- What a key holds was put by an entry of the log. -/
theorem replay_some_mem {log : List (Entry κ σ α)} {k : κ} {v : α} (h : replay log k = some v) :
    ∃ e ∈ log, e.key = k ∧ e.value = some v := by
  induction log using List.reverseRecOn with
  | nil => cases h
  | append_singleton log e ih =>
    rw [replay_concat] at h
    split at h
    · rename_i hk; exact ⟨e, by simp, hk.symm, h⟩
    · obtain ⟨f, hf, hkey, hvalue⟩ := ih h
      exact ⟨f, List.mem_append_left _ hf, hkey, hvalue⟩

variable [LinearOrder σ]

theorem replay_eq_some {log : List (Entry κ σ α)} (hlog : Ordered log) {k : κ} {v : α} :
    replay log k = some v ↔
      ∃ e ∈ log, e.key = k ∧ e.value = some v ∧ ∀ f ∈ log, f.key = k → f.stamp ≤ e.stamp := by
  induction log using List.reverseRecOn with
  | nil => exact ⟨fun h => (by cases h), fun ⟨_, he, _⟩ => (by cases he)⟩
  | append_singleton log last ih =>
    obtain ⟨hold, _, hbefore⟩ := List.pairwise_append.mp hlog
    have hlast : ∀ f ∈ log, f.Before last := fun f hf => hbefore f hf last (by simp)
    rw [replay_concat]
    by_cases hk : k = last.key
    · -- the last entry decides its key, and no earlier put reaches its stamp
      rw [if_pos hk]
      constructor
      · intro h
        refine ⟨last, by simp, hk.symm, h, fun f hf hkey => ?_⟩
        rcases List.mem_append.mp hf with hf | hf
        · rcases hlast f hf (hkey.trans hk) with hlt | ⟨heq, _⟩
          · exact le_of_lt hlt
          · exact le_of_eq heq
        · rw [List.mem_singleton.mp hf]
      · rintro ⟨e, he, hkey, hvalue, hmax⟩
        rcases List.mem_append.mp he with he | he
        · have hle := hmax last (by simp) hk.symm
          rcases hlast e he (hkey.trans hk) with hlt | ⟨_, hnone⟩
          · exact absurd hle (not_le_of_gt hlt)
          · rw [hnone] at hvalue; cases hvalue
        · rwa [← List.mem_singleton.mp he]
    · -- another key: the last entry is not among those compared
      rw [if_neg hk, ih hold]
      constructor
      · rintro ⟨e, he, hkey, hvalue, hmax⟩
        refine ⟨e, List.mem_append_left _ he, hkey, hvalue, fun f hf hfk => ?_⟩
        rcases List.mem_append.mp hf with hf | hf
        · exact hmax f hf hfk
        · rw [List.mem_singleton.mp hf] at hfk; exact absurd hfk.symm hk
      · rintro ⟨e, he, hkey, hvalue, hmax⟩
        have hne : e ≠ last := fun heq => hk (heq ▸ hkey.symm)
        rcases List.mem_append.mp he with he | he
        · exact ⟨e, he, hkey, hvalue, fun f hf => hmax f (List.mem_append_left _ hf)⟩
        · exact absurd (List.mem_singleton.mp he) hne

end

end AmlReal.Foundations.KeyedLog
