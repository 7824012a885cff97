import Mathlib.Algebra.Order.BigOperators.Group.List
import Mathlib.Algebra.Order.Group.Nat
import Mathlib.Data.List.Chain
import AmlReal.Bitcoin.Trace

/-! # The bounds of a route are tight

Along every route the running bounds of `make_path` are the least and the
greatest amount of the selected satoshis that can be in the last output, and
every amount between them can be. -/

namespace AmlReal.Bitcoin.RouteBounds
open AmlReal.Foundations.Checks AmlReal.Foundations.IntervalPropagation
open AmlReal.Warehouse.Values AmlReal.Bitcoin.Transactions AmlReal.Bitcoin.Bounds
open AmlReal.Bitcoin.Trace

/-- The hop's total is what its transaction's inputs carry, within the supply,
and covers the output it follows. -/
structure Covered (hop : Hop) : Prop where
  total : hop.tx.total = (hop.tx.inputs.map Leg.value).sum
  bound : hop.tx.total ≤ supply
  output : hop.output.value ≤ hop.tx.total

/-- A route: every later hop spends the output that the one before it follows. -/
structure Route (first : Hop) (rest : List Hop) : Prop where
  chain : (first :: rest).IsChain Hop.Follows
  covered : ∀ hop ∈ first :: rest, Covered hop
  selected : (first.inputs.map Leg.value).sum ≤ first.tx.total

/-- The satoshis that the first hop selects. -/
def selectedSum (first : Hop) : Nat := (first.inputs.map Leg.value).sum

theorem sumU64_eq {values : List Nat} {error : String} (h : values.sum < u64Size) :
    sumU64 values error = .ok values.sum := by
  have hfold : ∀ start, start + values.sum < u64Size →
      values.foldlM (fun n v => context (checkedAdd n v) error) start =
        .ok (start + values.sum) := by
    clear h
    induction values with
    | nil => intro start _; rfl
    | cons v rest ih =>
      intro start hstart
      rw [List.sum_cons] at hstart ⊢
      have hadd : checkedAdd start v = some (start + v) := if_pos (by omega)
      rw [List.foldlM_cons, hadd]
      change rest.foldlM _ (start + v) = _
      rw [ih (start + v) (by omega), Nat.add_assoc]
  have := hfold 0 (by omega)
  rwa [Nat.zero_add] at this

theorem supply_lt : supply < u64Size := by decide

/-- What a hop spends is part of its transaction's total. -/
theorem follows_le_total {prior hop : Hop} (hcovered : Covered hop) (h : prior.Follows hop) :
    prior.output.value ≤ hop.tx.total := by
  rw [← h.2.2.2.1, hcovered.total]
  refine List.single_le_sum (fun _ _ => Nat.zero_le _) _ (List.mem_map_of_mem ?_)
  exact List.getElem_mem _

/-- The walk can go on with the hops: the next follows and covers the bounds. -/
structure Ready (walk : Walk) (hops : List Hop) : Prop where
  order : walk.lower ≤ walk.upper
  follows : ∀ hop ∈ hops.head?, ∀ prior ∈ walk.previous, prior.Follows hop
  covers : ∀ hop ∈ hops.head?, walk.upper ≤ hop.tx.total

theorem step_ok {walk : Walk} {hop : Hop} {rest : List Hop} (hready : Ready walk (hop :: rest))
    (hcovered : Covered hop) : ∃ lo hi, walk.step hop = .ok (walk.extend hop lo hi) ∧
      hi ≤ hop.output.value ∧ lo ≤ hi ∧
      allocate walk.lower walk.upper hop.tx.total hop.output.value = .ok (lo, hi) := by
  have halloc := allocate_eq hready.order (hready.covers hop rfl) hcovered.output hcovered.bound
  refine ⟨_, _, ?_, Nat.min_le_right .., ?_, halloc⟩
  · unfold Walk.step
    rw [ensure_eq (hready.follows hop rfl), halloc]
    rfl
  · have := hready.order
    have := hcovered.output
    have := hready.covers hop rfl
    omega

theorem walk_ok {hops : List Hop} {walk : Walk} (hchain : hops.IsChain Hop.Follows)
    (hcovered : ∀ hop ∈ hops, Covered hop) (hready : Ready walk hops) :
    ∃ last, hops.foldlM Walk.step walk = .ok last ∧
      allocateAll (hops.map Hop.amounts) (walk.lower, walk.upper) =
        .ok (last.lower, last.upper) := by
  induction hops generalizing walk with
  | nil => exact ⟨walk, rfl, rfl⟩
  | cons hop rest ih =>
    obtain ⟨lo, hi, hstep, hupper, horder, halloc⟩ := step_ok hready (hcovered hop (by simp))
    have hnext : Ready (walk.extend hop lo hi) rest := by
      cases rest with
      | nil => exact ⟨horder, by simp, by simp⟩
      | cons other rest =>
        have hfollows : hop.Follows other := (List.isChain_cons_cons.mp hchain).1
        have hle := follows_le_total (hcovered other (by simp)) hfollows
        refine ⟨horder, ?_, ?_⟩
        · intro h hh prior hprior
          cases hh
          cases hprior
          exact hfollows
        · intro h hh
          cases hh
          exact hupper.trans hle
    obtain ⟨last, hlast, hall⟩ := ih hchain.tail (fun h hh => hcovered h (by simp [hh])) hnext
    refine ⟨last, ?_, ?_⟩
    · rw [List.foldlM_cons, hstep]; exact hlast
    · unfold allocateAll at hall ⊢
      rw [List.map_cons, List.foldlM_cons]
      change (allocate walk.lower walk.upper hop.tx.total hop.output.value >>= _) = _
      rw [halloc]
      exact hall

/-- On every route `make_path` finds bounds, and they are the least and the
greatest tagged amount of the last output over all assignments that conserve
value at every hop; every amount between the two is attained. -/
theorem route_bounds_tight {first : Hop} {rest : List Hop} (hroute : Route first rest) :
    ∃ walk, walkPath first rest = .ok walk ∧
      IsLeast {x | Feasible ((first :: rest).map Hop.amounts) (selectedSum first) x} walk.lower ∧
      IsGreatest {x | Feasible ((first :: rest).map Hop.amounts) (selectedSum first) x}
        walk.upper ∧
      ∀ x, walk.lower ≤ x → x ≤ walk.upper →
        Feasible ((first :: rest).map Hop.amounts) (selectedSum first) x := by
  have hfirst := hroute.covered first (by simp)
  have hsum : selected first = .ok (selectedSum first) := by
    have := hroute.selected
    have := hfirst.bound
    have := supply_lt
    exact sumU64_eq (by omega)
  have hready : Ready (Walk.start first (selectedSum first)) (first :: rest) := by
    refine ⟨Nat.le_refl _, ?_, ?_⟩
    · intro hop _ prior hprior; cases hprior
    · intro hop hhop; cases hhop; exact hroute.selected
  obtain ⟨walk, hwalk, hall⟩ := walk_ok hroute.chain hroute.covered hready
  have hexact := allocateAll_exact hall
  refine ⟨walk, ?_, hexact.isLeast, hexact.isGreatest, fun x => hexact.attained⟩
  unfold walkPath
  rw [hsum]
  exact hwalk

/-! A route of two hops: 100 satoshis enter the first transaction, which pays 70
to the followed output; the second spends these with 30 others and pays 80. -/

def sampleHeader (height : Nat) (hash : String) (inputs outputs : Nat) (fee : String) : Header :=
  ⟨height, "block", hash, 1, 1000, "commit", 3, 0, some inputs, some outputs, fee⟩

def sampleSeed : String := "12c6DSiU4Rq3P4ZxziKxzrL5LmMBrzjrJX"
def sampleMiddle : String := "1HLoD9E4SDFFPDiYfNYnkBLQ85Y51J3Zb1"
def sampleSubject : String := "1A1zP1eP5QGefi2DMPTfTL5SLmv7DivfNa"
def sampleOther : String := "script:51"

def sampleFirst : Hop where
  tx := {
    h := sampleHeader 5 "first" 1 2 "5"
    inputs := [⟨0, sampleSeed, 100, "n/a", some "origin", some 0⟩]
    outputs := [⟨0, sampleMiddle, 70, "n/b", none, none⟩, ⟨1, sampleOther, 25, "n/c", none, none⟩]
    total := 100
    fee := 5 }
  ins := [⟨0, by decide⟩]
  out := ⟨0, by decide⟩
  spends := by decide

def sampleSecond : Hop where
  tx := {
    h := sampleHeader 6 "second" 2 1 "20"
    inputs := [⟨0, sampleMiddle, 70, "n/d", some "first", some 0⟩,
      ⟨1, sampleOther, 30, "n/e", some "origin", some 1⟩]
    outputs := [⟨0, sampleSubject, 80, "n/f", none, none⟩]
    total := 100
    fee := 20 }
  ins := [⟨0, by decide⟩]
  out := ⟨0, by decide⟩
  spends := by decide

theorem sampleRoute : Route sampleFirst [sampleSecond] where
  chain := by decide
  covered := by
    intro hop hhop
    rcases List.mem_pair.mp hhop with rfl | rfl
    · exact ⟨rfl, by decide, by decide⟩
    · exact ⟨rfl, by decide, by decide⟩
  selected := by decide

theorem sample_bounds_tight : ∃ walk, walkPath sampleFirst [sampleSecond] = .ok walk ∧
    IsLeast {x | Feasible [⟨100, 70⟩, ⟨100, 80⟩] 100 x} walk.lower ∧
    IsGreatest {x | Feasible [⟨100, 70⟩, ⟨100, 80⟩] 100 x} walk.upper := by
  obtain ⟨walk, hwalk, hleast, hgreatest, _⟩ := route_bounds_tight sampleRoute
  exact ⟨walk, hwalk, hleast, hgreatest⟩

end AmlReal.Bitcoin.RouteBounds
