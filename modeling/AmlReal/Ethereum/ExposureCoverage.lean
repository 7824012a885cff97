import AmlReal.Ethereum.Exposure

/-! # Which subjects the exposure propagation reaches

The query of a hop sorts and limits by columns of the paths it extends. What
that keeps of the extensions to each new subject is compared with the best of
them. -/

namespace AmlReal.Ethereum.ExposureCoverage
open AmlReal.Foundations AmlReal.Foundations.LimitBy AmlReal.Ethereum.Exposure

section
variable {α : Type} [Field α] [LinearOrder α]

/-- The seed and the subject of the row that an extension is inserted as. -/
def target (direction : ExposureDirection) (e : Extension α) : String × String :=
  (e.path.seedAddress, direction.edgeTo e.edge.relationship)

variable (half : HalfLife α) (config : Config) (options : ExposureOptions α) (tables : Tables)
  (paths : List (ExposurePath α)) (hop : Nat) (direction : ExposureDirection)

def newScore (e : Extension α) : α := (e.row half config options tables hop direction).exposureScore

/-- Of every seed and new subject, as many of the best extensions become rows as
the limit allows. -/
def Covered (arrange : Arrangement (Extension α)) : Prop :=
  ∀ subject, Best options.maxPathsPerSubject (newScore half config options tables hop direction)
    (ofTarget (target direction) subject (extensions tables paths (hop - 1) direction))
    (ofTarget (target direction) subject (selected options tables arrange paths hop direction))

/-- Whatever order the ties come in, a hop covers every seed and subject exactly
when the limit by the ends of the extended paths is fair to them. -/
theorem covered_iff_fair :
    (∀ arrange, Covered half config options tables paths hop direction arrange) ↔
      Fair options.maxPathsPerSubject Extension.group (target direction) Extension.rank
        (newScore half config options tables hop direction)
        (extensions tables paths (hop - 1) direction) := by
  rw [← best_iff_fair]
  constructor
  · intro hcovered l hl
    obtain ⟨arrange, rfl⟩ := exists_arrangement hl
    exact hcovered arrange
  · intro hbest arrange
    exact hbest _ (ordered_insertionSort (arrange.perm _))

variable {half config options tables paths hop direction}

/-- A covered hop has a row for every extension's seed and subject. -/
theorem Covered.exists_row {arrange : Arrangement (Extension α)} {e : Extension α}
    (h : Covered half config options tables paths hop direction arrange)
    (hlimit : 0 < options.maxPathsPerSubject)
    (he : e ∈ extensions tables paths (hop - 1) direction) :
    ∃ row ∈ expandHop half config options tables arrange paths hop direction,
      (row.seedAddress, row.subjectAddress) = target direction e := by
  have hoffered : ofTarget (target direction) (target direction e)
      (extensions tables paths (hop - 1) direction) ≠ [] :=
    List.ne_nil_of_mem (List.mem_filter.mpr ⟨he, by simp⟩)
  obtain ⟨chosen, hchosen⟩ := List.exists_mem_of_ne_nil _ ((h _).ne_nil hlimit hoffered)
  obtain ⟨hmem, htarget⟩ := List.mem_filter.mp hchosen
  exact ⟨_, List.mem_map_of_mem hmem, of_decide_eq_true htarget⟩

end

/-! ## A seed with two counterparties -/

def sampleHalf : HalfLife ℚ where
  weight x := if x ≤ 0 then 1 else 1 / 2
  weight_zero := rfl
  weight_pos x _ := by split <;> norm_num
  weight_le x _ := by split <;> norm_num

def sampleConfig : Config := ⟨"run", 0, id⟩

def sampleOptions : ExposureOptions ℚ := ⟨5, 1 / 2, 365, 1⟩

def sampleTransfer (id source destination : String) (time : Nat) (hsource : source ≠ "")
    (hdestination : destination ≠ "") : Relationship :=
  ⟨id, id, time, source, destination, "eip155:1/native:eth", 1, Nat.one_pos, hsource, hdestination,
    by decide⟩

def sampleSeed : AddressEntity := ⟨"s", "mixer", "scam", "", 100, true, "SCAM", by decide⟩

theorem s_ne : "s" ≠ "" := by decide
theorem a_ne : "a" ≠ "" := by decide
theorem b_ne : "b" ≠ "" := by decide

def sampleTables : Tables :=
  ⟨[sampleTransfer "r1" "s" "a" 0 s_ne a_ne, sampleTransfer "r2" "s" "b" 0 s_ne b_ne],
    [sampleSeed], []⟩

/-- Of two counterparties of a seed, a limit of one path for each subject leaves one. -/
theorem counterparty_dropped : ¬∀ (half : HalfLife ℚ) config options tables arrange direction,
    options.validate = .ok options →
      Covered half config options tables (seedPaths config tables) 1 direction arrange := by
  intro h
  have hcovered := h sampleHalf sampleConfig sampleOptions sampleTables (Arrangement.asGiven _)
    .receivedFromSeed (by decide +kernel)
  have hreached : (expandHop sampleHalf sampleConfig sampleOptions sampleTables
      (Arrangement.asGiven _) (seedPaths sampleConfig sampleTables) 1 .receivedFromSeed).map
        ExposurePath.subjectAddress = ["a"] := by decide +kernel
  have hextended : ∃ e ∈ extensions (α := ℚ) sampleTables (seedPaths sampleConfig sampleTables) 0
      .receivedFromSeed, target .receivedFromSeed e = ("s", "b") := by decide +kernel
  obtain ⟨e, he, htarget⟩ := hextended
  obtain ⟨row, hrow, hsubject⟩ := hcovered.exists_row (by decide) he
  have hmem : row.subjectAddress ∈ ["a"] := hreached ▸ List.mem_map_of_mem hrow
  rw [htarget] at hsubject
  have hb : row.subjectAddress = "b" := (Prod.mk.inj hsubject).2
  rw [hb] at hmem
  exact absurd hmem (by decide)

end AmlReal.Ethereum.ExposureCoverage
