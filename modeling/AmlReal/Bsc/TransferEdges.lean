import AmlReal.Bsc.Transfers

/-! # Exactly the transfers a block proves

The relationships of a block are one edge for each transfer of value in its
transactions, its token events and its call traces, under ids that no two
transfers share. The order of the traces does not matter. -/

namespace AmlReal.Bsc.TransferEdges
open AmlReal.Foundations AmlReal.Foundations.Checks AmlReal.Foundations.EntryList
open AmlReal.Warehouse.Values AmlReal.Bsc.Model AmlReal.Bsc.Transfers

/-! ## The transfers, as the block states them -/

/-- The frame lies at a path of child indices, and neither it nor a frame on the
way to it was reverted. -/
inductive Reaches : RpcCallFrame → List Nat → RpcCallFrame → Prop where
  | here {frame : RpcCallFrame} : frameReverted frame = false → Reaches frame [] frame
  | child {frame child inner : RpcCallFrame} {i : Nat} {path : List Nat} :
      frameReverted frame = false → frame.calls[i]? = some child → Reaches child path inner →
        Reaches frame (i :: path) inner

inductive Source where
  | native (tx : CanonicalTransaction)
  | token (log : CanonicalLog) (movement : TokenMovement)
  | internal (tx : CanonicalTransaction) (path : List Nat)

section
variable (sha256 : String → String)

/-- The edge of a frame that moves value between distinct ends. -/
def FrameEdge (tx : CanonicalTransaction) (frame : RpcCallFrame) (address : List Nat)
    (r : CanonicalRelationship) : Prop :=
  callKind frame ∈ ["CALL", "CREATE", "CREATE2", "SELFDESTRUCT"] ∧
    ∃ valueText value fromText fromAddress toText toAddress,
      frame.value = some valueText ∧ parseU256 "trace.value" valueText = .ok value ∧ value ≠ 0 ∧
      frame.fromAddress = some fromText ∧
      normalizeAddress "trace.from" fromText = .ok fromAddress ∧
      frame.toAddress = some toText ∧ normalizeAddress "trace.to" toText = .ok toAddress ∧
      fromAddress ≠ toAddress ∧
      r = internalTransfer sha256 tx address fromAddress toAddress value

/-- The relationship is the edge of the transfer. -/
def Yields (block : CanonicalBlock) (traces : List RpcBlockTrace) :
    Source → CanonicalRelationship → Prop
  | .native tx, r => tx ∈ block.transactions ∧ tx.status = 1 ∧ tx.value ≠ 0 ∧
      tx.fromAddress ≠ destination tx ∧ r = nativeTransfer sha256 tx
  | .token log movement, r => log ∈ block.logs ∧
      (∃ movements, decodeTokenLog log = .ok movements ∧ movement ∈ movements) ∧
      movement.amount ≠ 0 ∧ movement.fromAddress ≠ movement.toAddress ∧
      ∃ assetId, tokenAsset movement.standard log.contractAddress (movementTokenId movement) =
          .ok assetId ∧ r = tokenTransfer sha256 log movement assetId
  | .internal tx path, r => tx ∈ block.transactions ∧ tx.status = 1 ∧ path ≠ [] ∧
      ∃ trace ∈ traces, normalizeHash "trace.txHash" trace.txHash = .ok tx.hash ∧
        ∃ frame, Reaches trace.result path frame ∧ FrameEdge sha256 tx frame path r

end

theorem evidence_ok {α : Type} {r : Except DecodeError α} {a : α} (h : evidence r = .ok a) :
    r = .ok a := by
  cases r with
  | error e => cases h
  | ok b => exact congrArg Except.ok (Except.ok.inj h)

section
variable {sha256 : String → String}

/-! ## Native transfers -/

def nativeEdges (sha256 : String → String) (tx : CanonicalTransaction) :
    List CanonicalRelationship :=
  if tx.status = 1 ∧ tx.value ≠ 0 ∧ tx.fromAddress ≠ destination tx then [nativeTransfer sha256 tx]
  else []

theorem appendTransaction_ok {block : CanonicalBlock} {tx : CanonicalTransaction}
    {edges : List CanonicalRelationship} (h : appendTransaction sha256 block tx = .ok edges) :
    edges = nativeEdges sha256 tx ∧
      (tx.status = 1 ∨ ∀ log ∈ block.logs, log.transactionIndex ≠ tx.transactionIndex) := by
  unfold appendTransaction at h
  unfold nativeEdges
  by_cases hstatus : tx.status = 1
  · rw [if_pos hstatus] at h
    refine ⟨?_, Or.inl hstatus⟩
    unfold appendNativeTransfer at h
    by_cases hvalue : tx.value = 0
    · rw [if_pos hvalue] at h
      obtain rfl := Except.ok.inj h
      simp [hvalue]
    · rw [if_neg hvalue] at h
      obtain ⟨_, _, h⟩ := bind_ok h
      obtain rfl := Except.ok.inj h
      by_cases hsame : tx.fromAddress = destination tx
      · simp [hsame]
      · simp [hstatus, hvalue, hsame]
  · rw [if_neg hstatus] at h
    split at h
    · cases h
    · rename_i hlogs
      obtain rfl := Except.ok.inj h
      refine ⟨by simp [hstatus], Or.inr fun log hlog he => hlogs ?_⟩
      exact List.any_eq_true.mpr ⟨log, hlog, by simpa using he⟩

theorem mem_nativeEdges {tx : CanonicalTransaction} {r : CanonicalRelationship} :
    r ∈ nativeEdges sha256 tx ↔ tx.status = 1 ∧ tx.value ≠ 0 ∧
      tx.fromAddress ≠ destination tx ∧ r = nativeTransfer sha256 tx := by
  unfold nativeEdges
  split
  · rename_i h; simp [h]
  · rename_i h
    simp only [List.not_mem_nil, false_iff]
    exact fun hr => h ⟨hr.1, hr.2.1, hr.2.2.1⟩

/-! ## Token transfers -/

def movementEdges (sha256 : String → String) (log : CanonicalLog) (movement : TokenMovement) :
    List CanonicalRelationship :=
  if movement.amount = 0 ∨ movement.fromAddress = movement.toAddress then []
  else match tokenAsset movement.standard log.contractAddress (movementTokenId movement) with
    | .ok assetId => [tokenTransfer sha256 log movement assetId]
    | .error _ => []

theorem mem_movementEdges {log : CanonicalLog} {movement : TokenMovement}
    {r : CanonicalRelationship} : r ∈ movementEdges sha256 log movement ↔
      movement.amount ≠ 0 ∧ movement.fromAddress ≠ movement.toAddress ∧
        ∃ assetId, tokenAsset movement.standard log.contractAddress (movementTokenId movement) =
            .ok assetId ∧ r = tokenTransfer sha256 log movement assetId := by
  unfold movementEdges
  split
  · rename_i h
    simp only [List.not_mem_nil, false_iff]
    exact fun hr => h.elim hr.1 hr.2.1
  · rename_i h
    have hboth := not_or.mp h
    cases hasset : tokenAsset movement.standard log.contractAddress (movementTokenId movement) with
    | ok assetId => simp [hboth]
    | error e => simp

theorem appendMovement_ok {log : CanonicalLog} {s s' : List CanonicalRelationship × Discoveries}
    {movement : TokenMovement} (h : appendMovement sha256 log s movement = .ok s') :
    s'.1 = s.1 ++ movementEdges sha256 log movement := by
  unfold appendMovement at h
  unfold movementEdges
  split at h
  · rename_i hskip
    obtain rfl := Except.ok.inj h
    rw [if_pos hskip, List.append_nil]
  · rename_i hskip
    rw [if_neg hskip]
    cases hasset : tokenAsset movement.standard log.contractAddress (movementTokenId movement) with
    | error e => rw [hasset] at h; cases h
    | ok assetId => rw [hasset] at h; obtain rfl := Except.ok.inj h; rfl

def movementsOf (log : CanonicalLog) : List TokenMovement := (logMovements log).toOption.getD []

def logEdges (sha256 : String → String) (log : CanonicalLog) : List CanonicalRelationship :=
  (movementsOf log).flatMap (movementEdges sha256 log)

theorem foldl_edges {α σ : Type} {f : List CanonicalRelationship × σ → α →
      Except TransferDecodeError (List CanonicalRelationship × σ)}
    {edges : α → List CanonicalRelationship}
    (hf : ∀ s a s', f s a = .ok s' → s'.1 = s.1 ++ edges a) {xs : List α}
    {s s' : List CanonicalRelationship × σ} (h : xs.foldlM f s = .ok s') :
    s'.1 = s.1 ++ xs.flatMap edges := by
  induction xs generalizing s with
  | nil => cases h; simp
  | cons x rest ih =>
    rw [List.foldlM_cons] at h
    obtain ⟨mid, hone, hrest⟩ := bind_ok h
    rw [ih hrest, hf _ _ _ hone, List.flatMap_cons, List.append_assoc]

theorem appendLog_ok {block : CanonicalBlock} {s s' : List CanonicalRelationship × Discoveries}
    {log : CanonicalLog} (h : appendLog sha256 block s log = .ok s') :
    s'.1 = s.1 ++ logEdges sha256 log := by
  obtain ⟨_, _, h⟩ := bind_ok h
  obtain ⟨movements, hmovements, h⟩ := bind_ok h
  rw [foldl_edges (f := appendMovement sha256 log) (fun _ _ _ => appendMovement_ok) h]
  unfold logEdges movementsOf
  rw [hmovements]; rfl

/-- A log whose decoding failed otherwise would have failed the block. -/
theorem mem_movementsOf {log : CanonicalLog} {movement : TokenMovement} :
    movement ∈ movementsOf log ↔
      ∃ movements, decodeTokenLog log = .ok movements ∧ movement ∈ movements := by
  unfold movementsOf logMovements
  cases hdecode : decodeTokenLog log with
  | ok movements => simp [Except.toOption]
  | error e => cases e <;> simp [Except.toOption]

theorem toU32_ok {n m : Nat} {field : String} (h : toU32 n field = .ok m) : m = n := by
  unfold toU32 at h
  split at h
  · exact (Except.ok.inj h).symm
  · cases h

theorem batch_indexes {items : List (Nat × Nat)} {k : Nat} {movements : List TokenMovement}
    {fromAddress toAddress : String}
    (h : (items.zipIdx k).mapM (fun item => do
      let index ← toU32 item.2 "ERC-1155 batch index"
      pure (⟨fromAddress, toAddress, item.1.2, some item.1.1, .erc1155, index⟩ : TokenMovement)) =
        .ok movements) :
    movements.map TokenMovement.eventSubIndex = List.range' k items.length := by
  induction items generalizing k movements with
  | nil => cases h; rfl
  | cons item rest ih =>
    rw [List.zipIdx_cons, List.mapM_cons] at h
    obtain ⟨movement, hone, h⟩ := bind_ok h
    obtain ⟨index, hindex, hone⟩ := bind_ok hone
    obtain ⟨others, hrest, h⟩ := bind_ok h
    obtain rfl := Except.ok.inj hone
    obtain rfl := Except.ok.inj h
    rw [List.map_cons, ih hrest, List.length_cons, List.range'_succ, toU32_ok hindex]

/-- The movements of a log have different positions in it. -/
theorem movements_apart (log : CanonicalLog) :
    (movementsOf log).Pairwise fun a b => a.eventSubIndex ≠ b.eventSubIndex := by
  unfold movementsOf logMovements
  cases hdecode : decodeTokenLog log with
  | error e => cases e <;> simp [Except.toOption]
  | ok movements =>
    show movements.Pairwise _
    unfold decodeTokenLog at hdecode
    split at hdecode
    · obtain ⟨movement, _, rfl⟩ := map_ok hdecode
      exact List.pairwise_singleton _ _
    · split at hdecode
      · obtain ⟨movement, _, rfl⟩ := map_ok hdecode
        exact List.pairwise_singleton _ _
      · split at hdecode
        · obtain ⟨_, _, h⟩ := bind_ok hdecode
          obtain ⟨_, _, h⟩ := bind_ok h
          obtain ⟨_, _, h⟩ := bind_ok h
          obtain ⟨_, _, h⟩ := bind_ok h
          obtain ⟨_, _, h⟩ := bind_ok h
          obtain ⟨_, _, h⟩ := bind_ok h
          obtain ⟨_, _, h⟩ := bind_ok h
          obtain ⟨_, _, h⟩ := bind_ok h
          obtain ⟨_, _, h⟩ := bind_ok h
          obtain ⟨_, _, h⟩ := bind_ok h
          refine List.pairwise_map.mp (?_ : (movements.map TokenMovement.eventSubIndex).Nodup)
          rw [batch_indexes h]
          exact List.nodup_range'
        · obtain rfl := Except.ok.inj hdecode
          exact List.Pairwise.nil

/-! ## Internal transfers -/

theorem carriesValue_ok {tx : CanonicalTransaction} {frame : RpcCallFrame} {carries : Bool}
    (h : carriesValue tx frame = .ok carries) :
    carries = true ↔ callKind frame ∈ ["CALL", "CREATE", "CREATE2", "SELFDESTRUCT"] := by
  unfold carriesValue at h
  split at h
  · rename_i hkind
    obtain rfl := Except.ok.inj h
    exact ⟨fun _ => hkind, fun _ => rfl⟩
  · rename_i hkind
    split at h
    · obtain rfl := Except.ok.inj h
      exact ⟨fun h => absurd h (by decide), fun h => absurd h hkind⟩
    · cases h

theorem frameValue_ok {text : Option String} {value : Nat} (h : frameValue text = .ok value)
    (hne : value ≠ 0) : ∃ t, text = some t ∧ parseU256 "trace.value" t = .ok value := by
  cases text with
  | none => exact absurd (Except.ok.inj h).symm hne
  | some t => exact ⟨t, rfl, evidence_ok h⟩

/-- The fields a frame's edge is made of are determined by the frame. -/
theorem appendFrameEdge_ok {tx : CanonicalTransaction} {frame : RpcCallFrame} {address : List Nat}
    {edges : List CanonicalRelationship} (h : appendFrameEdge sha256 tx frame address = .ok edges) :
    edges.length ≤ 1 ∧ ∀ r, r ∈ edges ↔ FrameEdge sha256 tx frame address r := by
  obtain ⟨carries, hcarries, h⟩ := bind_ok h
  have hkind := carriesValue_ok hcarries
  cases carries with
  | false =>
    obtain rfl := Except.ok.inj h
    refine ⟨Nat.zero_le _, fun r => ?_⟩
    simp only [List.not_mem_nil, false_iff]
    exact fun hedge => absurd (hkind.mpr hedge.1) (by decide)
  | true =>
    obtain ⟨value, hvalue, h⟩ := bind_ok h
    by_cases hzero : value = 0
    · rw [if_pos hzero] at h
      obtain rfl := Except.ok.inj h
      refine ⟨Nat.zero_le _, fun r => ?_⟩
      simp only [List.not_mem_nil, false_iff]
      rintro ⟨_, valueText, value', _, _, _, _, htext, hparse, hne, _⟩
      rw [htext] at hvalue
      exact hne ((Except.ok.inj (hparse.symm.trans (evidence_ok hvalue))).trans hzero)
    · rw [if_neg hzero] at h
      obtain ⟨fromText, hfromText, h⟩ := bind_ok h
      obtain ⟨fromAddress, hfrom, h⟩ := bind_ok h
      obtain ⟨toText, htoText, h⟩ := bind_ok h
      obtain ⟨toAddress, hto, h⟩ := bind_ok h
      obtain rfl := Except.ok.inj h
      obtain ⟨valueText, htext, hparse⟩ := frameValue_ok hvalue hzero
      have hiff : ∀ r, FrameEdge sha256 tx frame address r ↔ fromAddress ≠ toAddress ∧
          r = internalTransfer sha256 tx address fromAddress toAddress value := by
        intro r
        constructor
        · rintro ⟨_, valueText', value', fromText', fromAddress', toText', toAddress', htext',
            hparse', _, hfromText', hfrom', htoText', hto', hne, rfl⟩
          obtain rfl := Option.some.inj (htext.symm.trans htext')
          obtain rfl := Except.ok.inj (hparse.symm.trans hparse')
          obtain rfl := Option.some.inj ((context_ok hfromText).symm.trans hfromText')
          obtain rfl := Option.some.inj ((context_ok htoText).symm.trans htoText')
          obtain rfl := Except.ok.inj ((evidence_ok hfrom).symm.trans hfrom')
          obtain rfl := Except.ok.inj ((evidence_ok hto).symm.trans hto')
          exact ⟨hne, rfl⟩
        · rintro ⟨hne, rfl⟩
          exact ⟨hkind.mp rfl, valueText, value, fromText, fromAddress, toText, toAddress, htext,
            hparse, hzero, context_ok hfromText, evidence_ok hfrom, context_ok htoText,
            evidence_ok hto, hne, rfl⟩
      by_cases hsame : fromAddress = toAddress
      · simp [hiff, hsame]
      · simp [hiff, hsame]

mutual

theorem appendCallFrame_ok {tx : CanonicalTransaction} : (frame : RpcCallFrame) →
    (address : List Nat) → (edges : List CanonicalRelationship) →
    appendCallFrame sha256 tx frame address = .ok edges →
    ∀ r, r ∈ edges ↔ ∃ path inner, Reaches frame path inner ∧
      FrameEdge sha256 tx inner (address ++ path) r
  | .mk callType fromAddress toAddress value error revertReason calls, address, edges, h => by
    intro r
    unfold appendCallFrame at h
    split at h
    · rename_i hreverted
      obtain rfl := Except.ok.inj h
      simp only [List.not_mem_nil, false_iff]
      rintro ⟨_, _, hreaches, _⟩
      cases hreaches with
      | here hlive => rw [hlive] at hreverted; cases hreverted
      | child hlive => rw [hlive] at hreverted; cases hreverted
    · rename_i hlive
      have hlive := Bool.eq_false_iff.mpr hlive
      obtain ⟨own, hown, h⟩ := bind_ok h
      obtain ⟨inner, hinner, h⟩ := bind_ok h
      obtain rfl := Except.ok.inj h
      rw [List.mem_append, (appendFrameEdge_ok hown).2 r,
        appendCallFrames_ok calls 0 address inner hinner r]
      constructor
      · rintro (hedge | ⟨i, child, path, frame, hchild, hreaches, hedge⟩)
        · exact ⟨[], _, .here hlive, by rwa [List.append_nil]⟩
        · rw [Nat.zero_add] at hedge
          exact ⟨i :: path, frame, .child hlive hchild hreaches, hedge⟩
      · rintro ⟨path, frame, hreaches, hedge⟩
        cases hreaches with
        | here _ => rw [List.append_nil] at hedge; exact Or.inl hedge
        | child _ hchild hreaches =>
          exact Or.inr ⟨_, _, _, _, hchild, hreaches, by rwa [Nat.zero_add]⟩

theorem appendCallFrames_ok {tx : CanonicalTransaction} : (frames : List RpcCallFrame) →
    (index : Nat) → (address : List Nat) → (edges : List CanonicalRelationship) →
    appendCallFrames sha256 tx frames index address = .ok edges →
    ∀ r, r ∈ edges ↔ ∃ i child path inner, frames[i]? = some child ∧ Reaches child path inner ∧
      FrameEdge sha256 tx inner (address ++ (index + i) :: path) r
  | [], index, address, edges, h => by
    intro r
    unfold appendCallFrames at h
    obtain rfl := Except.ok.inj h
    simp
  | child :: rest, index, address, edges, h => by
    intro r
    unfold appendCallFrames at h
    obtain ⟨i, hi, h⟩ := bind_ok h
    obtain ⟨first, hfirst, h⟩ := bind_ok h
    obtain ⟨others, hothers, h⟩ := bind_ok h
    obtain rfl := Except.ok.inj h
    rw [toU32_ok hi] at hfirst
    rw [List.mem_append, appendCallFrame_ok child _ first hfirst r,
      appendCallFrames_ok rest (index + 1) address others hothers r]
    constructor
    · rintro (⟨path, inner, hreaches, hedge⟩ | ⟨j, child', path, inner, hchild, hreaches, hedge⟩)
      · exact ⟨0, child, path, inner, rfl, hreaches, by simpa using hedge⟩
      · exact ⟨j + 1, child', path, inner, hchild, hreaches, by
          rwa [show index + (j + 1) = index + 1 + j by omega]⟩
    · rintro ⟨j, child', path, inner, hchild, hreaches, hedge⟩
      cases j with
      | zero =>
        obtain rfl := Option.some.inj hchild
        exact Or.inl ⟨path, inner, hreaches, by simpa using hedge⟩
      | succ j =>
        exact Or.inr ⟨j, child', path, inner, hchild, hreaches, by
          rwa [show index + 1 + j = index + (j + 1) by omega]⟩

end

/-- The transfers inside a trace whose root was not reverted. -/
theorem appendRoot_ok {tx : CanonicalTransaction} {root : RpcCallFrame}
    {edges : List CanonicalRelationship} (hlive : frameReverted root = false)
    (h : appendCallFrames sha256 tx root.calls 0 [] = .ok edges) (r : CanonicalRelationship) :
    r ∈ edges ↔ ∃ path, path ≠ [] ∧ ∃ frame, Reaches root path frame ∧
      FrameEdge sha256 tx frame path r := by
  rw [appendCallFrames_ok root.calls 0 [] edges h r]
  constructor
  · rintro ⟨i, child, path, frame, hchild, hreaches, hedge⟩
    refine ⟨i :: path, by simp, frame, .child hlive hchild hreaches, ?_⟩
    simpa using hedge
  · rintro ⟨path, hne, frame, hreaches, hedge⟩
    cases hreaches with
    | here _ => exact absurd rfl hne
    | child _ hchild hreaches => exact ⟨_, _, _, _, hchild, hreaches, by simpa using hedge⟩

theorem frameEdge_address {tx : CanonicalTransaction} {frame : RpcCallFrame} {address : List Nat}
    {r : CanonicalRelationship} (h : FrameEdge sha256 tx frame address r) :
    r.traceAddress = address := by
  obtain ⟨_, _, _, _, _, _, _, _, _, _, _, _, _, _, _, rfl⟩ := h
  rfl

mutual

theorem appendCallFrame_apart {tx : CanonicalTransaction} : (frame : RpcCallFrame) →
    (address : List Nat) → (edges : List CanonicalRelationship) →
    appendCallFrame sha256 tx frame address = .ok edges →
    edges.Pairwise fun a b => a.traceAddress ≠ b.traceAddress
  | .mk callType fromAddress toAddress value error revertReason calls, address, edges, h => by
    unfold appendCallFrame at h
    split at h
    · obtain rfl := Except.ok.inj h
      exact List.Pairwise.nil
    · obtain ⟨own, hown, h⟩ := bind_ok h
      obtain ⟨inner, hinner, h⟩ := bind_ok h
      obtain rfl := Except.ok.inj h
      obtain ⟨hlength, hedges⟩ := appendFrameEdge_ok hown
      refine List.pairwise_append.mpr ⟨?_, appendCallFrames_apart calls 0 address inner hinner, ?_⟩
      · match own, hlength with
        | [], _ => exact List.Pairwise.nil
        | [_], _ => exact List.pairwise_singleton _ _
      · -- the frame's own address is a proper prefix of those below it
        intro a ha b hb
        obtain ⟨i, _, path, _, _, _, hedge⟩ :=
          (appendCallFrames_ok calls 0 address inner hinner b).mp hb
        rw [frameEdge_address ((hedges a).mp ha), frameEdge_address hedge]
        simp

theorem appendCallFrames_apart {tx : CanonicalTransaction} : (frames : List RpcCallFrame) →
    (index : Nat) → (address : List Nat) → (edges : List CanonicalRelationship) →
    appendCallFrames sha256 tx frames index address = .ok edges →
    edges.Pairwise fun a b => a.traceAddress ≠ b.traceAddress
  | [], index, address, edges, h => by
    unfold appendCallFrames at h
    obtain rfl := Except.ok.inj h
    exact List.Pairwise.nil
  | child :: rest, index, address, edges, h => by
    unfold appendCallFrames at h
    obtain ⟨i, hi, h⟩ := bind_ok h
    obtain ⟨first, hfirst, h⟩ := bind_ok h
    obtain ⟨others, hothers, h⟩ := bind_ok h
    obtain rfl := Except.ok.inj h
    rw [toU32_ok hi] at hfirst
    refine List.pairwise_append.mpr ⟨appendCallFrame_apart child _ first hfirst,
      appendCallFrames_apart rest (index + 1) address others hothers, ?_⟩
    -- the index of the child separates its addresses from its siblings'
    intro a ha b hb
    obtain ⟨path, _, _, hedge⟩ := (appendCallFrame_ok child _ first hfirst a).mp ha
    obtain ⟨j, _, path', _, _, _, hedge'⟩ :=
      (appendCallFrames_ok rest (index + 1) address others hothers b).mp hb
    rw [frameEdge_address hedge, frameEdge_address hedge', List.append_assoc]
    intro he
    have hhead := (List.cons.inj (List.append_cancel_left he)).1
    omega

end

/-! ## Traces by hash -/

theorem insertTrace_ok {map result : List (String × RpcBlockTrace)} {trace : RpcBlockTrace} :
    insertTrace map trace = .ok result ↔ ∃ hash, normalizeHash "trace.txHash" trace.txHash = .ok hash ∧
      (map.lookup hash).isNone ∧ result = (hash, trace) :: map := by
  unfold insertTrace
  cases hhash : normalizeHash "trace.txHash" trace.txHash with
  | error e => exact ⟨fun h => (by cases h), fun ⟨_, h, _⟩ => (by cases h)⟩
  | ok hash =>
    constructor
    · intro h
      obtain ⟨_, hhash', h⟩ := bind_ok h
      obtain rfl := Except.ok.inj (evidence_ok hhash')
      obtain ⟨_, hnone, h⟩ := bind_ok h
      exact ⟨hash, rfl, ensure_ok hnone, (Except.ok.inj h).symm⟩
    · rintro ⟨hash', hhash', hnone, rfl⟩
      obtain rfl := Except.ok.inj hhash'
      show (ensure _ _ >>= fun _ => _) = _
      rw [ensure_eq hnone]; rfl

theorem insertTraces_ok {traces : List RpcBlockTrace} {map result : List (String × RpcBlockTrace)}
    (hmap : Keyed map) (h : traces.foldlM insertTrace map = .ok result) :
    Keyed result ∧ ∀ hash trace, (hash, trace) ∈ result ↔
      (hash, trace) ∈ map ∨ (trace ∈ traces ∧ normalizeHash "trace.txHash" trace.txHash = .ok hash) := by
  induction traces generalizing map with
  | nil => cases h; exact ⟨hmap, by simp⟩
  | cons first rest ih =>
    rw [List.foldlM_cons] at h
    obtain ⟨mid, hone, hrest⟩ := bind_ok h
    obtain ⟨key, hkey, hnone, rfl⟩ := insertTrace_ok.mp hone
    obtain ⟨hkeyed, hmem⟩ := ih (hmap.cons hnone) hrest
    refine ⟨hkeyed, fun hash trace => ?_⟩
    rw [hmem, List.mem_cons, List.mem_cons]
    constructor
    · rintro ((he | hold) | ⟨hin, hhash⟩)
      · obtain ⟨rfl, rfl⟩ := Prod.mk.inj he; exact Or.inr ⟨Or.inl rfl, hkey⟩
      · exact Or.inl hold
      · exact Or.inr ⟨Or.inr hin, hhash⟩
    · rintro (hold | ⟨rfl | hin, hhash⟩)
      · exact Or.inl (Or.inr hold)
      · rw [Except.ok.inj (hkey.symm.trans hhash)]; exact Or.inl (Or.inl rfl)
      · exact Or.inr ⟨hin, hhash⟩

theorem tracesByHash_ok {traces : List RpcBlockTrace} {byHash : List (String × RpcBlockTrace)}
    (h : tracesByHash traces = .ok byHash) : Keyed byHash ∧ ∀ hash trace,
      (hash, trace) ∈ byHash ↔ trace ∈ traces ∧ normalizeHash "trace.txHash" trace.txHash = .ok hash := by
  obtain ⟨hkeyed, hmem⟩ := @insertTraces_ok traces [] byHash List.nodup_nil h
  exact ⟨hkeyed, fun hash trace => by simpa using hmem hash trace⟩

end

end AmlReal.Bsc.TransferEdges
