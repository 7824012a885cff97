import AmlReal.Bitcoin.Intelligence
import AmlReal.Bitcoin.Trace

/-! # The search for exposure routes

`scan` of `exposure/trace.rs` walks from the transactions of an address against
or along the spending of outputs, and makes a path wherever it meets a seed;
`compute` of `exposure/mod.rs` frames the paths of a run. What the reader
returns for a neighbour is arbitrary here: `make_path` checks it again. -/

namespace AmlReal.Bitcoin.Scan
open AmlReal.Foundations.Floats AmlReal.Foundations.Json
open AmlReal.Warehouse.Values AmlReal.Bitcoin.Transactions AmlReal.Bitcoin.Trace
open AmlReal.Bitcoin.Intelligence (ClaimRow)

def service (labels : List Value) : Bool := labels.any fun v =>
  toAsciiLowercase (v["entity_type"].asStr.getD "") ∈
    ["exchange", "custodian", "bridge", "dex", "mixer"]

/-- The seed filter on the labels of a subject. -/
def seed (claim : Value) (at' : Nat) : Bool :=
  claim["is_exposure_seed"] = .bool true ∧ claim["risk_level"].asU64.any (· > 0) ∧
  claim["valid_from_unix_ms"].asU64.any (· ≤ at') ∧
  (claim["valid_to_unix_ms"] = .null ∨ claim["valid_to_unix_ms"].asU64.any (· > at'))

/-! ## Transactions -/

/-- The widths of the header's integers. -/
structure Typed (h : Header) : Prop where
  blockNumber : h.blockNumber < 2 ^ 64
  transactionIndex : h.transactionIndex < 2 ^ 32
  timestamp : h.blockTimestampUnixMs < 2 ^ 64

/-- `max_edges` of the reader that a scan makes. -/
def maxEdges : Nat := 2000

/-- A transaction that the scan goes on with: loaded, and not a coinbase. -/
structure Canonical (address : String → Except String String) (tx : Tx) : Prop where
  loaded : ∃ edges, edges.length ≤ maxEdges ∧ readTx address tx.h edges = .ok tx
  typed : Typed tx.h
  spends : tx.h.coinbase ≠ 1

section
variable {parse : String → Except String String} {tx : Tx}

theorem Canonical.isLoaded (h : Canonical parse tx) : Loaded tx := by
  obtain ⟨edges, _, hread⟩ := h.loaded
  exact (readTx_loaded hread).1

theorem Canonical.lengths (h : Canonical parse tx) :
    tx.inputs.length ≤ maxEdges ∧ tx.outputs.length ≤ maxEdges := by
  obtain ⟨edges, hedges, hread⟩ := h.loaded
  have hlengths := readTx_lengths hread
  exact ⟨hlengths.1.trans hedges, hlengths.2.trans hedges⟩

theorem Canonical.conserves (h : Canonical parse tx) :
    (tx.outputs.map Leg.value).sum + tx.fee = tx.total := by
  have hconserve := h.isLoaded.conservation
  rwa [if_neg h.spends] at hconserve

end

/-! ## The queue

A piece of work is a transaction with the route found beyond it. Backwards it
waits with the output that the route spends, forwards with the inputs that
spend the route's end. -/

inductive Work where
  | backward (tx : Tx) (out : Fin tx.outputs.length) (path : List Hop)
  | forward (tx : Tx) (ins : List (Fin tx.inputs.length)) (spends : ins ≠ []) (path : List Hop)

/-- The inputs of a transaction that spend outputs of a subject. -/
def inputsOf (tx : Tx) (subject : String) : List (Fin tx.inputs.length) :=
  (List.finRange tx.inputs.length).filter fun i => tx.inputs[i].subject = subject

section
variable (parse : String → Except String String) (address : String) (maxHops : Nat)

/-- What the queue may hold at some point of a scan. -/
inductive Queued : Work → Prop
  | received {tx : Tx} {out : Fin tx.outputs.length} : Canonical parse tx →
      tx.outputs[out].subject = address → tx.outputs[out].value > 0 →
      Queued (.backward tx out [])
  | spent {tx : Tx} (spends : inputsOf tx address ≠ []) : Canonical parse tx →
      Queued (.forward tx (inputsOf tx address) spends [])
  | previous {tx parent : Tx} {out : Fin tx.outputs.length} {path : List Hop}
      (index : Fin tx.inputs.length) (parentOut : Fin parent.outputs.length) :
      Queued (.backward tx out path) → path.length + 1 < maxHops → Canonical parse parent →
      Queued (.backward parent parentOut (⟨tx, [index], out, List.cons_ne_nil _ _⟩ :: path))
  | spender {tx child : Tx} {ins : List (Fin tx.inputs.length)} {spends : ins ≠ []}
      {path : List Hop} (index : Fin tx.outputs.length) (input : Fin child.inputs.length) :
      Queued (.forward tx ins spends path) → path.length + 1 < maxHops → Canonical parse child →
      Queued (.forward child [input] (List.cons_ne_nil _ _) (path ++ [⟨tx, ins, index, spends⟩]))

/-- The routes that end at a seed: the subject whose labels are looked at, the
timestamp that its claims must be valid at, and the hops. -/
inductive Routed : Bool → String → Nat → List Hop → Prop
  | received {tx : Tx} {out : Fin tx.outputs.length} {path : List Hop}
      (index : Fin tx.inputs.length) (spends : inputsOf tx tx.inputs[index].subject ≠ []) :
      Queued parse address maxHops (.backward tx out path) →
      Routed true tx.inputs[index].subject tx.h.blockTimestampUnixMs
        (⟨tx, inputsOf tx tx.inputs[index].subject, out, spends⟩ :: path)
  | sent {tx : Tx} {ins : List (Fin tx.inputs.length)} {spends : ins ≠ []} {path : List Hop}
      (index : Fin tx.outputs.length) :
      Queued parse address maxHops (.forward tx ins spends path) →
      Routed false tx.outputs[index].subject tx.h.blockTimestampUnixMs
        (path ++ [⟨tx, ins, index, spends⟩])

end

/-! ## Labels -/

/-- An approved, active and reviewed entity of an address, as import and review
validate its row. -/
structure Entity (address : String) (row : ClaimRow) : Prop where
  networkId : row.networkId = Network.bitcoin.id
  address_eq : row.address = address
  sourced : blank row.sourceId = false
  referenced : row.evidenceRefs ≠ [] ∧ ∀ r ∈ row.evidenceRefs, blank r = false
  approved : row.reviewStatus = "approved"
  reviewed : blank row.reviewedBy = false ∧
    ∃ at', row.reviewedAtUnixMs = some at' ∧ at' < 2 ^ 64

/-- The snapshot that the labels of an address come with. -/
def snapshotOf (address id : String) : Value := .object [
  ("contract", .string "bitcoin_intelligence_v1"), ("network_id", .string Network.bitcoin.id),
  ("address", .string address), ("snapshot_id", .string id)]

/-! ## The frame of a run -/

def frame (address runId snapshotId sourceSnapshotId : String) (pathIds : List Value) : Value :=
  .object [("contract", .string "bitcoin_exposure_v1"), ("network_id", .string Network.bitcoin.id),
    ("address", .string address), ("run_id", .string runId), ("path_ids", .array pathIds),
    ("snapshot_id", .string snapshotId), ("source_snapshot_id", .string sourceSnapshotId),
    ("current", .bool true)]

/-- What `compute` sets on every path of a run. -/
def finish (F : FloatOps) (runId : String) (truncated : Bool) (path : Value) : Value :=
  let path := (path.set "run_id" (.string runId)).set "policy_version"
    (.string "bitcoin_utxo_bounds_v1")
  if truncated then (path.set "score_eligible" (.bool false)).set "exposure_score" (float F 0)
  else path

/-- The fields under which a complete run reaches the risk policy. -/
structure Presented (address runId snapshotId sourceSnapshotId : String) (pathIds : List Value)
    (data : Value) : Prop where
  networkId : data["network_id"] = .string Network.bitcoin.id
  address_eq : data["address"] = .string address
  source : data["source_snapshot"]["snapshot_id"] = .string sourceSnapshotId
  snapshot : data["exposure_snapshot"] = frame address runId snapshotId sourceSnapshotId pathIds
  complete : (data.get "exposure_coverage").bind (·.get "truncated") = some (.bool false)

/-! ## What a route is -/

section
variable {parse : String → Except String String} {address subject : String} {maxHops at' : Nat}
  {incoming : Bool} {hops : List Hop}

/-- Behind the work lies a route whose hops are canonical and that ends at the address. -/
def Work.Valid (parse : String → Except String String) (address : String) (maxHops : Nat) :
    Work → Prop
  | .backward tx out path => Canonical parse tx ∧ path.length < maxHops ∧
      (∀ hop ∈ path, Canonical parse hop.tx) ∧
      ((path.getLast?.map fun hop => hop.output.subject).getD tx.outputs[out].subject) = address
  | .forward tx ins _ path => Canonical parse tx ∧ path.length < maxHops ∧ ins.Nodup ∧
      (∀ hop ∈ path, Canonical parse hop.tx ∧ hop.ins.Nodup) ∧
      ∀ leg ∈ (path.head?.map Hop.inputs).getD (ins.map fun i => tx.inputs[i]),
        leg.subject = address

theorem inputsOf_nodup (tx : Tx) (subject : String) : (inputsOf tx subject).Nodup :=
  (List.nodup_finRange _).filter _

theorem inputsOf_subject {tx : Tx} {subject : String} {i : Fin tx.inputs.length}
    (h : i ∈ inputsOf tx subject) : tx.inputs[i].subject = subject := by
  simpa [inputsOf] using h

theorem queued_valid {work : Work} (hhops : 0 < maxHops) (h : Queued parse address maxHops work) :
    work.Valid parse address maxHops := by
  induction h with
  | received hcanonical hsubject _ => exact ⟨hcanonical, hhops, by simp, hsubject⟩
  | @spent tx spends hcanonical =>
    refine ⟨hcanonical, hhops, inputsOf_nodup tx address, by simp, fun leg hleg => ?_⟩
    obtain ⟨i, hi, rfl⟩ := List.mem_map.mp hleg
    exact inputsOf_subject hi
  | @previous tx parent out path index parentOut _ hlength hparent ih =>
    obtain ⟨hcanonical, _, hpath, hend⟩ := ih
    refine ⟨hparent, hlength, ?_, ?_⟩
    · intro hop hhop
      rcases List.mem_cons.mp hhop with rfl | hhop
      · exact hcanonical
      · exact hpath hop hhop
    · -- the end of the route is that of what follows, if anything does
      cases path with
      | nil => exact hend
      | cons hop rest => rw [List.getLast?_cons_cons]; exact hend
  | @spender tx child ins spends path index input _ hlength hchild ih =>
    obtain ⟨hcanonical, _, hnodup, hpath, hstart⟩ := ih
    refine ⟨hchild, by simpa using hlength, List.nodup_singleton _, ?_, ?_⟩
    · intro hop hhop
      rcases List.mem_append.mp hhop with hhop | hhop
      · exact hpath hop hhop
      · obtain rfl := List.mem_singleton.mp hhop
        exact ⟨hcanonical, hnodup⟩
    · cases path with
      | nil => exact hstart
      | cons hop rest => exact hstart

/-- What holds of every route of a scan. -/
structure Shape (parse : String → Except String String) (address : String) (maxHops : Nat)
    (incoming : Bool) (subject : String) (at' : Nat) (first : Hop) (rest : List Hop) : Prop where
  canonical : ∀ hop ∈ first :: rest, Canonical parse hop.tx
  length : (first :: rest).length ≤ maxHops
  distinct : first.ins.Nodup
  source : ∀ leg ∈ first.inputs, leg.subject = if incoming then subject else address
  target : ((first :: rest).getLast (List.cons_ne_nil _ _)).output.subject =
    if incoming then address else subject
  valid : at' = (if incoming then first
    else (first :: rest).getLast (List.cons_ne_nil _ _)).tx.h.blockTimestampUnixMs

theorem routed_shape {first : Hop} {rest : List Hop} (hhops : 0 < maxHops)
    (h : Routed parse address maxHops incoming subject at' (first :: rest)) :
    Shape parse address maxHops incoming subject at' first rest := by
  generalize hroute : first :: rest = route at h
  cases h with
  | @received tx out path index spends hqueued =>
    obtain ⟨hcanonical, hlength, hpath, hend⟩ := queued_valid hhops hqueued
    obtain ⟨rfl, rfl⟩ := List.cons.inj hroute
    refine ⟨?_, hlength, inputsOf_nodup _ _, ?_, ?_, rfl⟩
    · intro hop hhop
      rcases List.mem_cons.mp hhop with rfl | hhop
      · exact hcanonical
      · exact hpath hop hhop
    · intro leg hleg
      obtain ⟨i, hi, rfl⟩ := List.mem_map.mp hleg
      exact inputsOf_subject hi
    · cases rest with
      | nil => exact hend
      | cons hop rest =>
        rw [List.getLast?_eq_some_getLast (List.cons_ne_nil hop rest)] at hend
        rw [List.getLast_cons (List.cons_ne_nil hop rest)]
        exact hend
  | @sent tx ins spends path index hqueued =>
    obtain ⟨hcanonical, hlength, hnodup, hpath, hstart⟩ := queued_valid hhops hqueued
    have hall : ∀ hop ∈ first :: rest, Canonical parse hop.tx ∧ hop.ins.Nodup := by
      intro hop hhop
      rw [hroute] at hhop
      rcases List.mem_append.mp hhop with hhop | hhop
      · exact hpath hop hhop
      · obtain rfl := List.mem_singleton.mp hhop
        exact ⟨hcanonical, hnodup⟩
    have hlast : (first :: rest).getLast (List.cons_ne_nil _ _) = ⟨tx, ins, index, spends⟩ := by
      simp [hroute]
    refine ⟨fun hop hhop => (hall hop hhop).1, ?_, (hall first (by simp)).2, ?_, ?_, ?_⟩
    · rw [hroute, List.length_append]; exact hlength
    · intro leg hleg
      refine hstart leg ?_
      cases path with
      | nil =>
        obtain ⟨rfl, _⟩ := List.cons.inj hroute
        exact hleg
      | cons hop path =>
        obtain ⟨rfl, _⟩ := List.cons.inj hroute
        exact hleg
    · rw [hlast]; rfl
    · simp [hlast]

end

end AmlReal.Bitcoin.Scan
