import AmlReal.Ethereum.BlockExtraction
import AmlReal.Ethereum.StandardLogs

/-! # What a block transfers

The transfers of value that a block, its receipts and its traces state, and the
row of each. The extraction of one transaction writes just the rows of its own. -/

namespace AmlReal.Ethereum.BlockSources
open AmlReal.Foundations.Checks AmlReal.Ethereum.Movements AmlReal.Ethereum.StandardLogs
open AmlReal.Ethereum.BlockExtraction

/-! ## The transfers, as the node states them -/

def frameCalls : CallFrame → List CallFrame
  | .mk _ _ _ _ _ _ calls => calls

def frameFailed : CallFrame → Bool
  | .mk _ _ _ _ error revertReason _ => error.isSome || revertReason.isSome

/-- The frame lies at a path of child indices below the calls, and neither it
nor a frame on the way to it failed. -/
inductive Reaches : List CallFrame → List Nat → CallFrame → Prop where
  | here {calls : List CallFrame} {frame : CallFrame} {i : Nat} :
      calls[i]? = some frame → frameFailed frame = false → Reaches calls [i] frame
  | child {calls : List CallFrame} {frame inner : CallFrame} {i : Nat} {path : List Nat} :
      calls[i]? = some frame → frameFailed frame = false → Reaches (frameCalls frame) path inner →
        Reaches calls (i :: path) inner

inductive Source where
  | transaction (tx : Transaction)
  | movement (tx : Transaction) (position : Nat) (movement : TokenMovement)
  | frame (tx : Transaction) (path : List Nat)
  | withdrawal (withdrawal : Withdrawal)

section
variable (c : BlockContext)

/-- The row of a frame that moves value between distinct ends. -/
def FrameTransfer (tx : TransactionInput) (path : List Nat) :
    CallFrame → AddressRelationshipRow → Prop
  | .mk typ fromAddress toAddress value _ _ _, r =>
    typ.toUpper ∈ ["CALL", "CREATE", "CREATE2", "SELFDESTRUCT"] ∧
      ∃ receiver amount, toAddress = some receiver ∧ value = some amount ∧ amount ≠ 0 ∧
        fromAddress ≠ receiver ∧ r = internalRelationship c tx path fromAddress receiver amount

/-- What the extraction takes from a transaction and its receipt. -/
def inputOf (tx : Transaction) (receipt : TransactionReceipt) : TransactionInput :=
  transactionInput tx receipt (tx.transactionIndex.getD 0)

/-- The row is that of the transaction's own value. -/
def NativeTransfer (tx : TransactionInput) (r : AddressRelationshipRow) : Prop :=
  tx.status = true ∧ tx.value ≠ 0 ∧
    ∃ toAddress, tx.destination = some toAddress ∧ r = nativeRelationship c tx toAddress

/-- The row is that of a movement of the log at the position. -/
def TokenTransfer (tx : TransactionInput) (position : Nat) (movement : TokenMovement)
    (r : AddressRelationshipRow) : Prop :=
  ∃ log, tx.logs[position]? = some log ∧ StandardMovement c.topics log movement ∧
    movement.amount ≠ 0 ∧ movement.eventSubIndex < 2 ^ 32 ∧
      r = tokenRelationship c tx (logIndexAt (log, position)) movement

/-- The row is that of a frame of the transaction's trace. -/
def InternalTransfer (tx : TransactionInput) (trace : Option TransactionTrace) (path : List Nat)
    (r : AddressRelationshipRow) : Prop :=
  tx.status = true ∧ ∃ t, trace = some t ∧
    ∃ frame, Reaches t.calls path frame ∧ FrameTransfer c tx path frame r

/-- The relationship is the one of the source. -/
def Yields (block : Block) (receipts : List TransactionReceipt)
    (traces : Option (List TransactionTrace)) : Source → AddressRelationshipRow → Prop
  | .transaction tx, r => tx ∈ block.transactions.getD [] ∧
      ∃ receipt ∈ receipts, receipt.transactionHash = tx.txHash ∧
        NativeTransfer c (inputOf tx receipt) r
  | .movement tx position movement, r => tx ∈ block.transactions.getD [] ∧
      ∃ receipt ∈ receipts, receipt.transactionHash = tx.txHash ∧
        TokenTransfer c (inputOf tx receipt) position movement r
  | .frame tx path, r => tx ∈ block.transactions.getD [] ∧
      ∃ receipt ∈ receipts, receipt.transactionHash = tx.txHash ∧
        ∃ trace ∈ traces.getD [], trace.txHash = tx.txHash ∧
          InternalTransfer c (inputOf tx receipt) (some trace) path r
  | .withdrawal withdrawal, r => withdrawal ∈ block.withdrawals.getD [] ∧
      r = withdrawalRow c withdrawal

end

/-! ## The rows of one transaction -/

section
variable {c : BlockContext} {tx : TransactionInput} {r : AddressRelationshipRow}

theorem toU32_ok {n m : Nat} {field : String} (h : toU32 n field = .ok m) : m = n ∧ n < 2 ^ 32 := by
  unfold toU32 at h
  split at h
  · rename_i hlt
    exact ⟨(Except.ok.inj h).symm, hlt⟩
  · cases h

theorem mem_nativeRelationships : r ∈ nativeRelationships c tx ↔ NativeTransfer c tx r := by
  unfold nativeRelationships NativeTransfer
  split
  · rename_i h
    rw [List.mem_map]
    constructor
    · rintro ⟨toAddress, hto, rfl⟩
      exact ⟨h.1, h.2, toAddress, Option.mem_toList.mp hto, rfl⟩
    · rintro ⟨_, _, toAddress, hto, rfl⟩
      exact ⟨toAddress, Option.mem_toList.mpr hto, rfl⟩
  · rename_i h
    simp only [List.not_mem_nil, false_iff]
    exact fun ⟨hstatus, hvalue, _⟩ => h ⟨hstatus, hvalue⟩

/-- The movements of value in a log. -/
def valueMovements (c : BlockContext) (log : Log) : List TokenMovement :=
  (tokenMovements c.topics log).filter fun movement => movement.amount ≠ 0

def tokenRows (c : BlockContext) (tx : TransactionInput) : List AddressRelationshipRow :=
  tx.logs.zipIdx.flatMap fun item =>
    (valueMovements c item.1).map (tokenRelationship c tx (logIndexAt item))

def tokenObservations (c : BlockContext) (tx : TransactionInput) : List ObservedMovement :=
  tx.logs.zipIdx.flatMap fun item =>
    (valueMovements c item.1).map (observedMovement c (logIndexAt item))

theorem logMovements_ok {item : Log × Nat} {pairs : List (Nat × TokenMovement)}
    (h : logMovements c item = .ok pairs) :
    pairs = (valueMovements c item.1).map fun movement => (logIndexAt item, movement) := by
  unfold logMovements at h
  obtain ⟨_, _, h⟩ := bind_ok h
  obtain ⟨logIndex, hindex, h⟩ := bind_ok h
  obtain rfl := Except.ok.inj h
  rw [(toU32_ok hindex).1]
  rfl

theorem extractTransfers_ok {trace : Option TransactionTrace} {transfers : Transfers}
    (h : extractTransfers c tx trace = .ok transfers) :
    ∃ internal, internalRelationships c tx trace = .ok internal ∧
      transfers.relationships = nativeRelationships c tx ++ tokenRows c tx ++ internal ∧
      transfers.movements = tokenObservations c tx := by
  unfold extractTransfers at h
  obtain ⟨moved, hmoved, h⟩ := bind_ok h
  obtain ⟨internal, hinternal, h⟩ := bind_ok h
  obtain rfl := Except.ok.inj h
  have hpairs := mapM_eq_map (fun _ _ hitem => logMovements_ok hitem) hmoved
  refine ⟨internal, hinternal, ?_, ?_⟩
  · show _ ++ moved.flatten.map _ ++ internal = _
    rw [hpairs, ← List.flatMap_def, List.map_flatMap]
    simp only [List.map_map]
    rfl
  · show moved.flatten.map _ = _
    rw [hpairs, ← List.flatMap_def, List.map_flatMap]
    simp only [List.map_map]
    rfl

theorem mem_tokenRows (htopics : Distinct c.topics) :
    r ∈ tokenRows c tx ↔ ∃ position movement, TokenTransfer c tx position movement r := by
  unfold tokenRows TokenTransfer
  rw [List.mem_flatMap]
  constructor
  · rintro ⟨⟨log, position⟩, hitem, hr⟩
    obtain ⟨movement, hmovement, rfl⟩ := List.mem_map.mp hr
    obtain ⟨hmem, hamount⟩ := List.mem_filter.mp hmovement
    obtain ⟨hstandard, hindex⟩ := (mem_tokenMovements htopics).mp hmem
    exact ⟨position, movement, log, List.mem_zipIdx_iff_getElem?.mp hitem, hstandard,
      of_decide_eq_true hamount, hindex, rfl⟩
  · rintro ⟨position, movement, log, hlog, hstandard, hamount, hindex, rfl⟩
    exact ⟨(log, position), List.mem_zipIdx_iff_getElem?.mpr hlog, List.mem_map.mpr ⟨movement,
      List.mem_filter.mpr ⟨(mem_tokenMovements htopics).mpr ⟨hstandard, hindex⟩,
        decide_eq_true hamount⟩, rfl⟩⟩

theorem mem_frameRelationships {typ : String} {fromAddress : Address} {toAddress : Option Address}
    {value : Option U256} (error revertReason : Option String) (calls : List CallFrame)
    {path : List Nat} : r ∈ frameRelationships c tx typ fromAddress toAddress value path ↔
      FrameTransfer c tx path (.mk typ fromAddress toAddress value error revertReason calls) r := by
  unfold frameRelationships FrameTransfer
  split
  · rename_i htyp
    cases toAddress with
    | none => simp
    | some receiver =>
      cases value with
      | none => simp
      | some amount =>
        dsimp only
        split
        · rename_i hmoves
          rw [List.mem_singleton]
          constructor
          · rintro rfl
            exact ⟨htyp, receiver, amount, rfl, rfl, hmoves.1, hmoves.2, rfl⟩
          · rintro ⟨_, receiver', amount', hreceiver, hamount, _, _, rfl⟩
            rw [Option.some.inj hreceiver, Option.some.inj hamount]
        · rename_i hstill
          simp only [List.not_mem_nil, false_iff]
          rintro ⟨_, receiver', amount', hreceiver, hamount, hne, hends, _⟩
          rw [← Option.some.inj hreceiver] at hends
          rw [← Option.some.inj hamount] at hne
          exact hstill ⟨hne, hends⟩
  · rename_i htyp
    simp only [List.not_mem_nil, false_iff]
    exact fun h => htyp h.1

mutual

/-- The rows below a frame's address are those of the frames it reaches. -/
theorem appendCallFrame_ok : (frame : CallFrame) → (address : List Nat) →
    (rows : List AddressRelationshipRow) → appendCallFrame c tx frame address = .ok rows →
    ∀ r, r ∈ rows ↔ frameFailed frame = false ∧ (FrameTransfer c tx address frame r ∨
      ∃ path inner, Reaches (frameCalls frame) path inner ∧
        FrameTransfer c tx (address ++ path) inner r)
  | .mk typ fromAddress toAddress value error revertReason calls, address, rows, h => by
    intro r
    unfold appendCallFrame at h
    split at h
    · rename_i hfailed
      obtain rfl := Except.ok.inj h
      have hflag : frameFailed
          (.mk typ fromAddress toAddress value error revertReason calls) = true := by
        simpa [frameFailed] using hfailed
      simp [hflag]
    · rename_i hlive
      have hflag : frameFailed
          (.mk typ fromAddress toAddress value error revertReason calls) = false := by
        simpa [frameFailed] using hlive
      obtain ⟨inner, hinner, h⟩ := bind_ok h
      obtain rfl := Except.ok.inj h
      rw [List.mem_append, mem_frameRelationships error revertReason calls,
        appendCallFrames_ok calls 0 address inner hinner r]
      constructor
      · rintro (hown | ⟨i, path, frame, hreaches, htransfer⟩)
        · exact ⟨hflag, Or.inl hown⟩
        · rw [Nat.zero_add] at htransfer
          exact ⟨hflag, Or.inr ⟨i :: path, frame, hreaches, htransfer⟩⟩
      · rintro ⟨_, hown | ⟨path, frame, hreaches, htransfer⟩⟩
        · exact Or.inl hown
        · cases hreaches with
          | here hcall hlive =>
            exact Or.inr ⟨_, [], frame, .here hcall hlive, by rwa [Nat.zero_add]⟩
          | child hcall hlive hinner =>
            exact Or.inr ⟨_, _, frame, .child hcall hlive hinner, by rwa [Nat.zero_add]⟩

theorem appendCallFrames_ok : (frames : List CallFrame) → (index : Nat) → (address : List Nat) →
    (rows : List AddressRelationshipRow) → appendCallFrames c tx frames index address = .ok rows →
    ∀ r, r ∈ rows ↔ ∃ i path inner, Reaches frames (i :: path) inner ∧
      FrameTransfer c tx (address ++ (index + i) :: path) inner r
  | [], index, address, rows, h => by
    intro r
    unfold appendCallFrames at h
    obtain rfl := Except.ok.inj h
    simp only [List.not_mem_nil, false_iff]
    rintro ⟨i, path, inner, hreaches, _⟩
    cases hreaches with
    | here hcall => cases hcall
    | child hcall => cases hcall
  | child :: rest, index, address, rows, h => by
    intro r
    unfold appendCallFrames at h
    obtain ⟨i, hi, h⟩ := bind_ok h
    obtain ⟨first, hfirst, h⟩ := bind_ok h
    obtain ⟨others, hothers, h⟩ := bind_ok h
    obtain rfl := Except.ok.inj h
    rw [(toU32_ok hi).1] at hfirst
    rw [List.mem_append, appendCallFrame_ok child _ first hfirst r,
      appendCallFrames_ok rest (index + 1) address others hothers r]
    constructor
    · rintro (⟨hlive, hown | ⟨path, inner, hreaches, htransfer⟩⟩ |
        ⟨j, path, inner, hreaches, htransfer⟩)
      · exact ⟨0, [], child, .here rfl hlive, hown⟩
      · exact ⟨0, path, inner, .child rfl hlive hreaches, by simpa using htransfer⟩
      · refine ⟨j + 1, path, inner, ?_, by rwa [show index + (j + 1) = index + 1 + j by omega]⟩
        cases hreaches with
        | here hcall hlive => exact .here hcall hlive
        | child hcall hlive hinner => exact .child hcall hlive hinner
    · rintro ⟨j, path, inner, hreaches, htransfer⟩
      cases j with
      | zero =>
        cases hreaches with
        | here hcall hlive =>
          obtain rfl := Option.some.inj hcall
          exact Or.inl ⟨hlive, Or.inl htransfer⟩
        | child hcall hlive hinner =>
          obtain rfl := Option.some.inj hcall
          exact Or.inl ⟨hlive, Or.inr ⟨path, inner, hinner, by simpa using htransfer⟩⟩
      | succ j =>
        rw [show index + (j + 1) = index + 1 + j by omega] at htransfer
        refine Or.inr ⟨j, path, inner, ?_, htransfer⟩
        cases hreaches with
        | here hcall hlive => exact .here hcall hlive
        | child hcall hlive hinner => exact .child hcall hlive hinner

end

theorem mem_internalRelationships {trace : Option TransactionTrace}
    {rows : List AddressRelationshipRow} (h : internalRelationships c tx trace = .ok rows) :
    r ∈ rows ↔ ∃ path, InternalTransfer c tx trace path r := by
  unfold internalRelationships at h
  unfold InternalTransfer
  cases trace with
  | none =>
    obtain rfl := Except.ok.inj h
    simp
  | some t =>
    dsimp only at h
    split at h
    · rename_i hstatus
      obtain ⟨_, _, h⟩ := bind_ok h
      rw [appendCallFrames_ok t.calls 0 [] rows h r]
      constructor
      · rintro ⟨i, path, frame, hreaches, htransfer⟩
        rw [Nat.zero_add] at htransfer
        exact ⟨i :: path, hstatus, t, rfl, frame, hreaches, htransfer⟩
      · rintro ⟨path, _, t', ht, frame, hreaches, htransfer⟩
        obtain rfl := Option.some.inj ht
        cases hreaches with
        | here hcall hlive =>
          exact ⟨_, [], frame, .here hcall hlive, by rwa [Nat.zero_add]⟩
        | child hcall hlive hinner =>
          exact ⟨_, _, frame, .child hcall hlive hinner, by rwa [Nat.zero_add]⟩
    · rename_i hfailed
      obtain rfl := Except.ok.inj h
      simp only [List.not_mem_nil, false_iff]
      exact fun ⟨_, hstatus, _⟩ => hfailed hstatus

/-- The rows of a transaction are those of its transfers. -/
theorem mem_relationships (htopics : Distinct c.topics) {trace : Option TransactionTrace}
    {transfers : Transfers} (h : extractTransfers c tx trace = .ok transfers) :
    r ∈ transfers.relationships ↔ NativeTransfer c tx r ∨
      (∃ position movement, TokenTransfer c tx position movement r) ∨
        ∃ path, InternalTransfer c tx trace path r := by
  obtain ⟨internal, hinternal, hrows, _⟩ := extractTransfers_ok h
  rw [hrows, List.mem_append, List.mem_append, mem_nativeRelationships, mem_tokenRows htopics,
    mem_internalRelationships hinternal, or_assoc]

end

end AmlReal.Ethereum.BlockSources
