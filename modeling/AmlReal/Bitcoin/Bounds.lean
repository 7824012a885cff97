import AmlReal.Bitcoin.Transactions
import AmlReal.Foundations.IntervalPropagation

/-! # Value bounds across a transaction

`exposure/bounds.rs`, and what the bounds are bounds of: of the value that
enters a transaction, as much reaches the followed output as fits into it, and
as much is lost as fits into the other outputs and the fee. -/

namespace AmlReal.Bitcoin.Bounds
open AmlReal.Foundations.Checks AmlReal.Foundations.IntervalPropagation
open AmlReal.Bitcoin.Transactions (supply)

def allocate (lower upper totalInput output : Nat) : Except String (Nat × Nat) := do
  ensure (lower ≤ upper ∧ upper ≤ totalInput ∧ output ≤ totalInput ∧ totalInput ≤ supply)
    "invalid UTXO allocation bounds"
  pure (lower - (totalInput - output), min upper output)

/-- The amounts of a hop that bound a flow through it. -/
structure Amounts where
  total : Nat
  output : Nat

/-- Of `x` tagged satoshis spent by a transaction `y` may be in its followed
output: they fit in it, and the rest fits into everything else. -/
def Conserves (hop : Amounts) (x y : Nat) : Prop :=
  y ≤ hop.output ∧ y ≤ x ∧ x - y ≤ hop.total - hop.output

theorem allocate_ok {lower upper total output : Nat} {J : Nat × Nat}
    (h : allocate lower upper total output = .ok J) :
    (lower ≤ upper ∧ upper ≤ total ∧ output ≤ total ∧ total ≤ supply) ∧
      J = (lower - (total - output), min upper output) := by
  obtain ⟨_, hensure, hpure⟩ := bind_ok h
  exact ⟨ensure_ok hensure, (Except.ok.inj hpure).symm⟩

theorem allocate_eq {lower upper total output : Nat} (hlower : lower ≤ upper)
    (hupper : upper ≤ total) (houtput : output ≤ total) (htotal : total ≤ supply) :
    allocate lower upper total output = .ok (lower - (total - output), min upper output) := by
  unfold allocate
  rw [ensure_eq ⟨hlower, hupper, houtput, htotal⟩]
  rfl

/-- One hop is exact: from an interval of tagged inputs the allocation holds
the tagged outputs, no more and no fewer. -/
theorem allocate_exact (hop : Amounts) (I J : Nat × Nat) (hI : I.1 ≤ I.2)
    (h : allocate I.1 I.2 hop.total hop.output = .ok J) : Exact (Conserves hop) I J := by
  obtain ⟨⟨_, hupper, houtput, _⟩, rfl⟩ := allocate_ok h
  refine ⟨?_, fun y => ⟨?_, ?_⟩⟩
  · change I.1 - (hop.total - hop.output) ≤ min I.2 hop.output
    omega
  · rintro ⟨x, hlow, hhigh, hfit, hle, hlost⟩
    change I.1 - (hop.total - hop.output) ≤ y ∧ y ≤ min I.2 hop.output
    omega
  · rintro ⟨hlow, hhigh⟩
    change I.1 - (hop.total - hop.output) ≤ y at hlow
    change y ≤ min I.2 hop.output at hhigh
    -- the smallest possible input that is at least the output
    refine ⟨max I.1 y, Nat.le_max_left .., by omega, by omega, Nat.le_max_right .., by omega⟩

/-- The tagged amounts of the last output over all assignments along the hops. -/
def Feasible (hops : List Amounts) (start : Nat) (last : Nat) : Prop :=
  ∃ amount : Nat → Nat, amount 0 = start ∧ amount hops.length = last ∧
    ∀ i hop, hops[i]? = some hop → Conserves hop (amount i) (amount (i + 1))

theorem feasible_iff_reach {hops : List Amounts} {start last : Nat} :
    Feasible hops start last ↔ Reach Conserves hops start last := reach_iff_assignment.symm

/-- The bounds of a chain, from bounds on its first input. -/
def allocateAll (hops : List Amounts) (bounds : Nat × Nat) : Except String (Nat × Nat) :=
  hops.foldlM (fun I hop => allocate I.1 I.2 hop.total hop.output) bounds

theorem allocateAll_exact {hops : List Amounts} {start : Nat} {J : Nat × Nat}
    (h : allocateAll hops (start, start) = .ok J) :
    Exact (Feasible hops) (start, start) J := by
  have hexact := exact_foldlM (R := Conserves) allocate_exact (Nat.le_refl start) h
  refine ⟨hexact.nonempty, fun y => ?_⟩
  rw [← hexact.image y]
  exact exists_congr fun x => and_congr_right fun _ => and_congr_right fun _ => feasible_iff_reach

end AmlReal.Bitcoin.Bounds
