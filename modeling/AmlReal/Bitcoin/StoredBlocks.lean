import AmlReal.Warehouse.Fence

/-! # Stored blocks of Bitcoin

`block_hash` of `db/queries.rs`: the canonical block of a height, read and
checked by `core::read` between two reads of the state. -/

namespace AmlReal.Bitcoin.StoredBlocks
open AmlReal.Foundations.LatestRows AmlReal.Foundations.StoreProgram
open AmlReal.Foundations.StoreProgram.Program
open AmlReal.Warehouse.Values AmlReal.Warehouse.Tables AmlReal.Warehouse.Rules
open AmlReal.Warehouse.Publication AmlReal.Warehouse.Fence

/-- The canonical rows of a height. -/
def blocksAt (height : Nat) (db : Database) : List BlockRow :=
  (ingestedBlocksCanonical db).filter fun b => b.networkId = .bitcoin ∧ b.blockNumber = height

/-- `block_hash` -/
def blockHash (height : Nat) : Writer (Option String) := do
  let before ← state .bitcoin
  let rows ← read fun db => (blocksAt height db).take 1
  lift (rows.forM validateBlockRow)
  let after ← state .bitcoin
  ensure (after = before) "checkpoint changed during core read; retry"
  pure (rows.head?.map (·.blockHash))

variable {db : Database} {height : Nat} {b c : BlockRow}

theorem mem_blocksAt : b ∈ blocksAt height db ↔
    b ∈ ingestedBlocksCanonical db ∧ b.networkId = .bitcoin ∧ b.blockNumber = height := by
  unfold blocksAt
  rw [List.mem_filter, decide_eq_true_eq]

/-- A height has one canonical row. -/
theorem blocksAt_unique (hb : b ∈ blocksAt height db) (hc : c ∈ blocksAt height db) : b = c := by
  obtain ⟨hb, hnetwork, hheight⟩ := mem_blocksAt.mp hb
  obtain ⟨hc, hnetwork', hheight'⟩ := mem_blocksAt.mp hc
  have hkey : b.height = c.height := Prod.ext (hnetwork.trans hnetwork'.symm) (hheight.trans hheight'.symm)
  exact latest_unique (mem_canonical.mp hb).1 (mem_canonical.mp hc).1 hkey

theorem head_blocksAt : (blocksAt height db).head? = some b ↔ b ∈ blocksAt height db := by
  constructor
  · exact List.mem_of_mem_head?
  · intro hb
    cases hrows : blocksAt height db with
    | nil =>
      rw [hrows] at hb
      cases hb
    | cons first rest =>
      have hfirst : first ∈ blocksAt height db := by
        rw [hrows]
        exact List.mem_cons_self
      rw [List.head?_cons, blocksAt_unique hfirst hb]

/-- The rows of the height keep the rules of their table. -/
def Valid (height : Nat) (db : Database) : Prop := ∀ b ∈ blocksAt height db, validateBlockRow b = .ok ()

theorem blockHash_quiet (height : Nat) : Quiet (blockHash height) :=
  (quiet_read _).bind fun _ => (quiet_read _).bind fun _ => (quiet_lift _).bind fun _ =>
    (quiet_read _).bind fun _ => (quiet_ensure _ _).bind fun _ => quiet_pure _

theorem blockHash_returns (h : Valid height db) :
    Returns (blockHash height) db [] ((blocksAt height db).head?.map (·.blockHash)) := by
  have hrows : ((blocksAt height db).take 1).forM validateBlockRow = .ok () := by
    cases hblocks : blocksAt height db with
    | nil => rfl
    | cons first rest =>
      have hfirst : validateBlockRow first = .ok () := by
        refine h first ?_
        rw [hblocks]
        exact List.mem_cons_self
      show (validateBlockRow first >>= fun _ => .ok ()) = _
      rw [hfirst]
      rfl
  have hhead : ((blocksAt height db).take 1).head? = (blocksAt height db).head? := by
    cases blocksAt height db with
    | nil => rfl
    | cons first rest => rfl
  unfold blockHash
  rw [← hhead]
  refine (read_returns _).next ((read_returns _).next ?_)
  rw [hrows]
  exact (lift_returns _).next ((read_returns _).next ((ensure_returns rfl).next rfl))

end AmlReal.Bitcoin.StoredBlocks
