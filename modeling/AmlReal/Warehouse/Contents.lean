import AmlReal.Warehouse.Tables

/-! # What inserts add to the tables

Each table after a replay is the table before it and the rows that the inserts
carry for it. -/

namespace AmlReal.Warehouse.Contents
open AmlReal.Foundations.StoreProgram AmlReal.Warehouse.Tables

def Insert.blockRows : Insert → List BlockRow
  | .blocks rows => rows
  | _ => []

def Insert.factRows : Insert → List (FactTable × FactRow)
  | .facts table rows => rows.map (table, ·)
  | _ => []

def Insert.stateRows : Insert → List State
  | .syncState rows => rows
  | _ => []

def blockRows (ws : List Insert) : List BlockRow := ws.flatMap Insert.blockRows

def factRows (ws : List Insert) : List (FactTable × FactRow) := ws.flatMap Insert.factRows

def stateRows (ws : List Insert) : List State := ws.flatMap Insert.stateRows

@[simp] theorem blockRows_nil : blockRows [] = [] := rfl
@[simp] theorem factRows_nil : factRows [] = [] := rfl
@[simp] theorem stateRows_nil : stateRows [] = [] := rfl

@[simp] theorem blockRows_append (ws vs : List Insert) :
    blockRows (ws ++ vs) = blockRows ws ++ blockRows vs := List.flatMap_append

@[simp] theorem factRows_append (ws vs : List Insert) :
    factRows (ws ++ vs) = factRows ws ++ factRows vs := List.flatMap_append

@[simp] theorem stateRows_append (ws vs : List Insert) :
    stateRows (ws ++ vs) = stateRows ws ++ stateRows vs := List.flatMap_append

@[simp] theorem blockRows_cons (w : Insert) (ws : List Insert) :
    blockRows (w :: ws) = Insert.blockRows w ++ blockRows ws := List.flatMap_cons

@[simp] theorem factRows_cons (w : Insert) (ws : List Insert) :
    factRows (w :: ws) = Insert.factRows w ++ factRows ws := List.flatMap_cons

@[simp] theorem stateRows_cons (w : Insert) (ws : List Insert) :
    stateRows (w :: ws) = Insert.stateRows w ++ stateRows ws := List.flatMap_cons

@[simp] theorem replay_identity (db : Database) (ws : List Insert) :
    (replay db ws).identity = db.identity := by
  induction ws generalizing db with
  | nil => rfl
  | cons w ws ih => rw [replay_cons, ih]; cases w <;> rfl

@[simp] theorem replay_ingestedBlocks (db : Database) (ws : List Insert) :
    (replay db ws).ingestedBlocks = db.ingestedBlocks ++ blockRows ws := by
  induction ws generalizing db with
  | nil => simp
  | cons w ws ih =>
    rw [replay_cons, ih]
    cases w <;> simp [LogStore.append, Database.append, Insert.blockRows]

@[simp] theorem replay_facts (db : Database) (ws : List Insert) :
    (replay db ws).facts = db.facts ++ factRows ws := by
  induction ws generalizing db with
  | nil => simp
  | cons w ws ih =>
    rw [replay_cons, ih]
    cases w <;> simp [LogStore.append, Database.append, Insert.factRows]

@[simp] theorem replay_syncState (db : Database) (ws : List Insert) :
    (replay db ws).syncState = db.syncState ++ stateRows ws := by
  induction ws generalizing db with
  | nil => simp
  | cons w ws ih =>
    rw [replay_cons, ih]
    cases w <;> simp [LogStore.append, Database.append, Insert.stateRows]

/-! ## Chunks of one table -/

theorem blockRows_chunks (cs : List (List BlockRow)) :
    blockRows (cs.map .blocks) = cs.flatten := by
  induction cs with
  | nil => rfl
  | cons c cs ih => simp [ih, Insert.blockRows]

@[simp] theorem factRows_chunks_blocks (cs : List (List BlockRow)) :
    factRows (cs.map .blocks) = [] := by
  induction cs with
  | nil => rfl
  | cons c cs ih => simp [ih, Insert.factRows]

@[simp] theorem stateRows_chunks_blocks (cs : List (List BlockRow)) :
    stateRows (cs.map .blocks) = [] := by
  induction cs with
  | nil => rfl
  | cons c cs ih => simp [ih, Insert.stateRows]

theorem factRows_chunks (table : FactTable) (cs : List (List FactRow)) :
    factRows (cs.map (.facts table)) = cs.flatten.map (table, ·) := by
  induction cs with
  | nil => rfl
  | cons c cs ih => simp [ih, Insert.factRows]

@[simp] theorem blockRows_chunks_facts (table : FactTable) (cs : List (List FactRow)) :
    blockRows (cs.map (.facts table)) = [] := by
  induction cs with
  | nil => rfl
  | cons c cs ih => simp [ih, Insert.blockRows]

@[simp] theorem stateRows_chunks_facts (table : FactTable) (cs : List (List FactRow)) :
    stateRows (cs.map (.facts table)) = [] := by
  induction cs with
  | nil => rfl
  | cons c cs ih => simp [ih, Insert.stateRows]

theorem blockRows_isPrefix {ws vs : List Insert} (h : ws <+: vs) : blockRows ws <+: blockRows vs := by
  obtain ⟨rest, rfl⟩ := h; simp

theorem factRows_isPrefix {ws vs : List Insert} (h : ws <+: vs) : factRows ws <+: factRows vs := by
  obtain ⟨rest, rfl⟩ := h; simp

theorem stateRows_isPrefix {ws vs : List Insert} (h : ws <+: vs) : stateRows ws <+: stateRows vs := by
  obtain ⟨rest, rfl⟩ := h; simp

end AmlReal.Warehouse.Contents
