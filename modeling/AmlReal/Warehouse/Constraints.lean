import Mathlib.Data.List.DropRight
import AmlReal.Foundations.EntryList
import AmlReal.Foundations.JoinedText
import AmlReal.Warehouse.Values

/-! # Stored table constraints

`constraints` of `migration.rs`, which reads the constraints of a table back
from its stored definition, and the definition that `contract.rs` writes. A
definition is a list of items between commas; quoted texts and nested brackets
keep their commas. -/

namespace AmlReal.Warehouse.Constraints
open AmlReal.Foundations.Checks AmlReal.Foundations.EntryList AmlReal.Foundations.JoinedText
open AmlReal.Warehouse.Values (isWhitespace)

/-! ## The scanner -/

/-- The variables of the loop. `current` is the text from `begin` to the index. -/
structure Scanner where
  depth : Int
  bracket : Int
  quote : Option Char
  escaped : Bool
  current : List Char
  items : List (List Char)
  deriving DecidableEq

def isQuote (c : Char) : Bool := c = '\'' ∨ c = '"' ∨ c = Char.ofNat 96

/-- Inside a quoted text. -/
def Scanner.quoted (s : Scanner) (q c : Char) : Scanner :=
  { s with
    current := s.current ++ [c]
    escaped := !s.escaped && c = '\\'
    quote := if s.escaped = false ∧ c ≠ '\\' ∧ c = q then none else some q }

def scan (s : Scanner) : List Char → Scanner
  | [] => s
  | c :: rest =>
    match s.quote with
    | some q => scan (s.quoted q c) rest
    | none =>
      let next := { s with current := s.current ++ [c] }
      if isQuote c then scan { next with quote := some c } rest
      else if c = '(' then scan { next with depth := s.depth + 1 } rest
      else if c = ')' then
        if s.depth - 1 = 0 then { s with depth := 0, items := s.items ++ [s.current] }
        else scan { next with depth := s.depth - 1 } rest
      else if c = '[' then scan { next with bracket := s.bracket + 1 } rest
      else if c = ']' then scan { next with bracket := s.bracket - 1 } rest
      else if c = ',' ∧ s.depth = 1 ∧ s.bracket = 0 then
        scan { s with items := s.items ++ [s.current], current := [] } rest
      else scan next rest

/-! ## The constraints of the items -/

/-- `str::trim_matches` -/
def trimMatches (p : Char → Bool) (text : List Char) : List Char := (text.dropWhile p).rdropWhile p

/-- `str::trim` -/
def trim : List Char → List Char := trimMatches isWhitespace

/-- `str::strip_prefix` -/
def stripPrefix (front text : List Char) : Option (List Char) :=
  if front.isPrefixOf text then some (text.drop front.length) else none

def CONSTRAINT : List Char := "CONSTRAINT ".toList

def CHECK : List Char := " CHECK ".toList

/-- The name between trimmed white space and back quotes. -/
def unquote (name : List Char) : List Char := trimMatches (· = Char.ofNat 96) (trim name)

def insertItem (result : List (List Char × List Char)) (item : List Char) :
    Except String (List (List Char × List Char)) :=
  match stripPrefix CONSTRAINT (trim item) with
  | none => .ok result
  | some rest => do
    let (name, expression) ← context (splitText CHECK rest) "invalid stored constraint"
    let name := unquote name
    ensure (¬∃ entry ∈ result, entry.1 = name) "duplicate stored constraint"
    pure (result ++ [(name, trim expression)])

/-- `constraints`; a map is the list of its entries. -/
def constraints (sql : List Char) : Except String (List (List Char × List Char)) := do
  let (_, definition) ← context (splitOnce '(' sql) "missing CREATE column list"
  let final := scan ⟨1, 0, none, false, [], []⟩ definition
  ensure (final.depth = 0 ∧ final.quote = none) "incomplete CREATE definition"
  final.items.foldlM insertItem []

/-! ## The form of an item -/

/-- What stands between two quotes: a backslash escapes the next character. -/
inductive Body (q : Char) : List Char → Prop
  | nil : Body q []
  | char {c : Char} {body : List Char} : c ≠ q → c ≠ '\\' → Body q body → Body q (c :: body)
  | escaped {c : Char} {body : List Char} : Body q body → Body q ('\\' :: c :: body)

/-- A text and what of it stands outside quotes. -/
inductive Outside : List Char → List Char → Prop
  | nil : Outside [] []
  | char {c : Char} {text out : List Char} : isQuote c = false → Outside text out → Outside (c :: text) (c :: out)
  | quoted {q : Char} {body text out : List Char} : isQuote q = true → Body q body → Outside text out →
    Outside (q :: (body ++ q :: text)) out

/-- Round and square brackets are balanced from these depths on, and never close what is not open.
`comma` says whether a comma may stand outside all of them. -/
def Balanced (comma : Bool) : Nat → Nat → List Char → Prop
  | round, square, [] => round = 0 ∧ square = 0
  | round, square, c :: rest =>
    if c = '(' then Balanced comma (round + 1) square rest
    else if c = ')' then 0 < round ∧ Balanced comma (round - 1) square rest
    else if c = '[' then Balanced comma round (square + 1) rest
    else if c = ']' then 0 < square ∧ Balanced comma round (square - 1) rest
    else if c = ',' then (comma = true ∨ 0 < round ∨ 0 < square) ∧ Balanced comma round square rest
    else Balanced comma round square rest

instance Balanced.decidable (comma : Bool) : ∀ (round square : Nat) (text : List Char),
    Decidable (Balanced comma round square text)
  | round, square, [] => inferInstanceAs (Decidable (round = 0 ∧ square = 0))
  | round, square, c :: rest =>
    have : ∀ r s, Decidable (Balanced comma r s rest) := fun r s => Balanced.decidable comma r s rest
    inferInstanceAs (Decidable (
      if c = '(' then Balanced comma (round + 1) square rest
      else if c = ')' then 0 < round ∧ Balanced comma (round - 1) square rest
      else if c = '[' then Balanced comma round (square + 1) rest
      else if c = ']' then 0 < square ∧ Balanced comma round (square - 1) rest
      else if c = ',' then (comma = true ∨ 0 < round ∨ 0 < square) ∧ Balanced comma round square rest
      else Balanced comma round square rest))

/-- Quotes are closed and brackets balanced outside them. -/
def SelfContained (comma : Bool) (item : List Char) : Prop := ∃ out, Outside item out ∧ Balanced comma 0 0 out

/-- A constraint item without the word before its name. -/
def constraintItem (item : List Char) : Option (List Char) := stripPrefix CONSTRAINT (trim item)

/-- The name and the expression of a constraint item that has a check. -/
def form (item : List Char) : Option (List Char × List Char) :=
  ((constraintItem item).bind (splitText CHECK)).map fun (name, expression) => (unquote name, trim expression)

/-- The items between commas, in brackets. -/
def definition (items : List (List Char)) (rest : List Char) : List Char :=
  [','].intercalate items ++ ')' :: rest

/-! ## Scanning items -/

theorem scan_body {q : Char} {body : List Char} (hbody : Body q body) (hq : q ≠ '\\') (depth bracket : Int)
    (current : List Char) (items : List (List Char)) (rest : List Char) :
    scan ⟨depth, bracket, some q, false, current, items⟩ (body ++ q :: rest) =
      scan ⟨depth, bracket, none, false, current ++ (body ++ [q]), items⟩ rest := by
  induction hbody generalizing current with
  | nil =>
    show scan _ (q :: rest) = _
    simp [scan, Scanner.quoted, hq]
  | @char c body hc hslash _ ih =>
    show scan _ (c :: (body ++ q :: rest)) = _
    have hstep : Scanner.quoted ⟨depth, bracket, some q, false, current, items⟩ q c =
        ⟨depth, bracket, some q, false, current ++ [c], items⟩ := by
      simp [Scanner.quoted, hc, hslash]
    rw [scan]
    show scan (Scanner.quoted _ q c) _ = _
    rw [hstep, ih]
    simp
  | @escaped c body _ ih =>
    show scan _ ('\\' :: c :: (body ++ q :: rest)) = _
    have hslash : Scanner.quoted ⟨depth, bracket, some q, false, current, items⟩ q '\\' =
        ⟨depth, bracket, some q, true, current ++ ['\\'], items⟩ := by
      simp [Scanner.quoted]
    have hstep : Scanner.quoted ⟨depth, bracket, some q, true, current ++ ['\\'], items⟩ q c =
        ⟨depth, bracket, some q, false, current ++ ['\\'] ++ [c], items⟩ := by
      simp [Scanner.quoted]
    rw [scan]
    show scan (Scanner.quoted _ q '\\') _ = _
    rw [hslash, scan]
    show scan (Scanner.quoted _ q c) _ = _
    rw [hstep, ih]
    simp

theorem quote_ne {q : Char} (h : isQuote q = true) : q ≠ '\\' := by
  intro hq
  rw [hq] at h
  exact absurd h (by decide)

/-- An item without a comma of its own is added to the current text, and the depths are back. -/
theorem scan_outside {item out : List Char} (hout : Outside item out) {round square : Nat}
    (hbalanced : Balanced false round square out) (current : List Char) (items : List (List Char))
    (rest : List Char) : scan ⟨round + 1, square, none, false, current, items⟩ (item ++ rest) =
      scan ⟨1, 0, none, false, current ++ item, items⟩ rest := by
  induction hout generalizing round square current with
  | nil =>
    obtain ⟨rfl, rfl⟩ := hbalanced
    simp
  | @char c item out hc _ ih =>
    have hcurrent : current ++ c :: item = current ++ [c] ++ item := by simp
    show scan _ (c :: (item ++ rest)) = _
    rw [scan, hcurrent]
    unfold Balanced at hbalanced
    simp only [hc, Bool.false_eq_true, if_false]
    by_cases hopen : c = '('
    · rw [if_pos hopen] at hbalanced ⊢
      exact ih hbalanced _
    rw [if_neg hopen] at hbalanced ⊢
    by_cases hclose : c = ')'
    · rw [if_pos hclose] at hbalanced ⊢
      obtain ⟨hround, hbalanced⟩ := hbalanced
      have hdepth : (round : Int) + 1 - 1 = (round - 1 : Nat) + 1 := by omega
      rw [if_neg (by omega), hdepth]
      exact ih hbalanced _
    rw [if_neg hclose] at hbalanced ⊢
    by_cases hleft : c = '['
    · rw [if_pos hleft] at hbalanced ⊢
      exact ih hbalanced _
    rw [if_neg hleft] at hbalanced ⊢
    by_cases hright : c = ']'
    · rw [if_pos hright] at hbalanced ⊢
      obtain ⟨hsquare, hbalanced⟩ := hbalanced
      have hbracket : (square : Int) - 1 = (square - 1 : Nat) := by omega
      rw [hbracket]
      exact ih hbalanced _
    rw [if_neg hright] at hbalanced ⊢
    by_cases hcomma : c = ','
    · rw [if_pos hcomma] at hbalanced
      obtain ⟨hinside, hbalanced⟩ := hbalanced
      have hnested : 0 < round ∨ 0 < square := hinside.resolve_left Bool.false_ne_true
      rw [if_neg (by omega)]
      exact ih hbalanced _
    · rw [if_neg hcomma] at hbalanced
      rw [if_neg fun h => hcomma h.1]
      exact ih hbalanced _
  | @quoted q body item out hq hbody _ ih =>
    have htext : q :: (body ++ q :: item) ++ rest = q :: (body ++ q :: (item ++ rest)) := by simp
    have hcurrent : current ++ q :: (body ++ q :: item) = current ++ [q] ++ (body ++ [q]) ++ item := by simp
    rw [htext, scan, hcurrent]
    simp only [hq, if_true]
    rw [scan_body hbody (quote_ne hq)]
    exact ih hbalanced _

/-- A list of items is split at the commas between them. -/
theorem scan_items {items : List (List Char)} (hne : items ≠ [])
    (hitems : ∀ item ∈ items, SelfContained false item) (done : List (List Char)) (rest : List Char) :
    ∃ current, scan ⟨1, 0, none, false, [], done⟩ (definition items rest) =
      ⟨0, 0, none, false, current, done ++ items⟩ := by
  induction items generalizing done with
  | nil => exact absurd rfl hne
  | cons item items ih =>
    obtain ⟨⟨out, hout, hbalanced⟩, hitems⟩ := List.forall_mem_cons.mp hitems
    unfold definition
    cases items with
    | nil =>
      refine ⟨item, ?_⟩
      rw [List.intercalate_singleton]
      refine (scan_outside hout hbalanced [] done (')' :: rest)).trans ?_
      rw [scan]
      simp [isQuote]
    | cons next items =>
      obtain ⟨current, hrest⟩ := ih (List.cons_ne_nil _ _) hitems (done ++ [item])
      refine ⟨current, ?_⟩
      rw [List.intercalate_cons_cons, List.append_assoc, List.append_assoc]
      refine (scan_outside hout hbalanced [] done _).trans ?_
      show scan _ (',' :: ([','].intercalate (next :: items) ++ ')' :: rest)) = _
      rw [scan]
      show (if isQuote ',' = true then _ else _) = _
      rw [if_neg (by decide), if_neg (by decide), if_neg (by decide), if_neg (by decide), if_neg (by decide),
        if_pos ⟨rfl, rfl, rfl⟩, List.nil_append]
      unfold definition at hrest
      rw [hrest]
      simp

/-! ## Collecting constraints -/

theorem insertItem_plain {result : List (List Char × List Char)} {item : List Char}
    (h : constraintItem item = none) : insertItem result item = .ok result := by
  unfold constraintItem at h
  rw [insertItem, h]

theorem form_constraintItem {item : List Char} {entry : List Char × List Char} (h : form item = some entry) :
    constraintItem item ≠ none := by
  intro hnone
  rw [form, hnone] at h
  cases h

theorem insertItem_form {result : List (List Char × List Char)} {item : List Char}
    {entry : List Char × List Char} (h : form item = some entry) : insertItem result item =
      ensure (¬∃ other ∈ result, other.1 = entry.1) "duplicate stored constraint" >>= fun _ =>
        .ok (result ++ [entry]) := by
  unfold form constraintItem at h
  unfold insertItem
  cases hstrip : stripPrefix CONSTRAINT (trim item) with
  | none =>
    rw [hstrip] at h
    cases h
  | some rest =>
    rw [hstrip, Option.bind_some] at h
    cases hsplit : splitText CHECK rest with
    | none =>
      rw [hsplit] at h
      cases h
    | some parts =>
      rw [hsplit] at h
      obtain rfl := Option.some.inj h
      show (context (splitText CHECK rest) _ >>= fun _ => _) = _
      rw [hsplit]
      rfl

theorem insertItem_unchecked {result : List (List Char × List Char)} {item : List Char}
    (hitem : constraintItem item ≠ none) (h : form item = none) :
    insertItem result item = .error "invalid stored constraint" := by
  unfold form constraintItem at h
  unfold constraintItem at hitem
  unfold insertItem
  cases hstrip : stripPrefix CONSTRAINT (trim item) with
  | none => exact absurd hstrip hitem
  | some rest =>
    rw [hstrip, Option.bind_some] at h
    cases hsplit : splitText CHECK rest with
    | none =>
      show (context (splitText CHECK rest) _ >>= fun _ => _) = _
      rw [hsplit]
      rfl
    | some parts =>
      rw [hsplit] at h
      cases h

/-- Every constraint item has a check. -/
def Checked (items : List (List Char)) : Prop :=
  ∀ item ∈ items, constraintItem item ≠ none → form item ≠ none

theorem collect_ok {items : List (List Char)} {result result' : List (List Char × List Char)} :
    Keyed result → (items.foldlM insertItem result = .ok result' ↔ Checked items ∧
      Keyed (result ++ items.filterMap form) ∧ result' = result ++ items.filterMap form) := by
  induction items generalizing result with
  | nil =>
    intro hkeyed
    rw [List.filterMap_nil, List.append_nil]
    constructor
    · intro h
      have hchecked : Checked [] := fun _ hmem => absurd hmem List.not_mem_nil
      exact ⟨hchecked, hkeyed, (Except.ok.inj h).symm⟩
    · rintro ⟨_, _, rfl⟩
      rfl
  | cons item items ih =>
    intro hkeyed
    rw [List.foldlM_cons]
    cases hform : form item with
    | none =>
      rw [List.filterMap_cons_none hform]
      by_cases hplain : constraintItem item = none
      · have hchecked : Checked (item :: items) ↔ Checked items := by
          simp [Checked, hplain]
        rw [insertItem_plain hplain, ok_bind, ih hkeyed, hchecked]
      · have hnot : ¬ Checked (item :: items) := fun h => h item List.mem_cons_self hplain hform
        rw [insertItem_unchecked hplain hform]
        constructor
        · intro h
          cases h
        · intro h
          exact absurd h.1 hnot
    | some entry =>
      have hchecked : Checked (item :: items) ↔ Checked items := by
        simp [Checked, hform]
      have hentries : result ++ entry :: items.filterMap form = result ++ [entry] ++ items.filterMap form := by
        simp
      rw [List.filterMap_cons_some hform, hentries, hchecked, insertItem_form hform]
      by_cases hfresh : ¬∃ other ∈ result, other.1 = entry.1
      · have hnext : Keyed (result ++ [entry]) := by
          show ((result ++ [entry]).map Prod.fst).Nodup
          rw [List.map_append]
          show (result.map Prod.fst ++ [entry.1]).Nodup
          rw [← List.concat_eq_append]
          exact (List.nodup_concat _ _).mpr ⟨fun hmem => hfresh (List.mem_map.mp hmem), hkeyed⟩
        rw [ensure_eq hfresh, ok_bind, ok_bind, ih hnext]
      · have hnot : ¬ Keyed (result ++ [entry] ++ items.filterMap form) := by
          intro hkeys
          have hnodup : ((result.map Prod.fst ++ [entry.1]) ++ (items.filterMap form).map Prod.fst).Nodup := by
            simpa [Keyed] using hkeys
          refine hfresh fun hother => ?_
          have hmem : entry.1 ∈ result.map Prod.fst := List.mem_map.mpr hother
          exact (List.nodup_append.mp (List.nodup_append.mp hnodup).1).2.2 _ hmem _
            List.mem_cons_self rfl
        constructor
        · intro h
          obtain ⟨_, hstep, _⟩ := bind_ok h
          obtain ⟨_, hensure, _⟩ := bind_ok hstep
          exact absurd (ensure_ok hensure) hfresh
        · intro h
          exact absurd h.2.1 hnot

/-- The constraints of a definition are those of its items. -/
theorem constraints_ok {front : List Char} (hfront : '(' ∉ front) {items : List (List Char)}
    (hitems : ∀ item ∈ items, SelfContained false item) (rest : List Char)
    {result : List (List Char × List Char)} :
    constraints (front ++ '(' :: definition items rest) = .ok result ↔
      Checked items ∧ Keyed (items.filterMap form) ∧ result = items.filterMap form := by
  have hcollect : constraints (front ++ '(' :: definition items rest) = items.foldlM insertItem [] := by
    unfold constraints
    rw [splitOnce_append hfront, context_some, ok_bind]
    by_cases hne : items = []
    · rw [hne]
      rfl
    · obtain ⟨current, hscan⟩ := scan_items hne hitems [] rest
      show (ensure ((scan ⟨1, 0, none, false, [], []⟩ (definition items rest)).depth = 0 ∧ _) _ >>= fun _ => _) = _
      simp only [hscan]
      rfl
  rw [hcollect, collect_ok Keyed.nil, List.nil_append]

/-! ## Rendered tables (`contract.rs`) -/

structure Column where
  name : List Char
  dataType : List Char
  default : Option (List Char)

structure Index where
  name : List Char
  expression : List Char
  indexType : List Char
  granularity : Nat

structure Constraint where
  name : List Char
  expression : List Char

structure Table where
  name : List Char
  columns : List Column
  engine : List Char
  orderBy : List (List Char)
  partitionBy : Option (List Char)
  indexes : List Index
  constraints : List Constraint

def isWord (c : Char) : Bool := c.isAlphanum || c = '_'

/-- `identifier` -/
def identifier (value : List Char) : Bool :=
  value ≠ [] ∧ value.length ≤ 128 ∧ value.all isWord ∧ ¬ value.head?.any Char.isDigit

def backquote : Char := Char.ofNat 96

def Column.item (c : Column) : List Char :=
  backquote :: c.name ++ backquote :: ' ' :: c.dataType ++
    ((c.default.map fun d => " DEFAULT ".toList ++ d).getD [])

def Index.item (i : Index) : List Char :=
  "INDEX ".toList ++ i.name ++ ' ' :: i.expression ++ " TYPE ".toList ++ i.indexType ++
    " GRANULARITY ".toList ++ Nat.toDigits 10 i.granularity

def Constraint.item (c : Constraint) : List Char :=
  CONSTRAINT ++ backquote :: c.name ++ [backquote] ++ CHECK ++ c.expression

def Table.items (table : Table) : List (List Char) :=
  table.columns.map Column.item ++ table.indexes.map Index.item ++ table.constraints.map Constraint.item

/-- The statement of `statements` for a table. -/
def Table.statement (table : Table) (database : List Char) : List Char :=
  "CREATE TABLE IF NOT EXISTS ".toList ++ database ++ '.' :: table.name ++ " (".toList ++
    [','].intercalate table.items ++ ") ENGINE = ".toList ++ table.engine ++
    ((table.partitionBy.map fun p => " PARTITION BY ".toList ++ p).getD []) ++ " ORDER BY (".toList ++
    [','].intercalate table.orderBy ++ ") SETTINGS index_granularity = 8192".toList

/-- What `validate` and `statements` check of the names, and the form that the texts have to have. -/
structure Table.Renders (table : Table) (database : List Char) : Prop where
  database : identifier database = true
  name : identifier table.name = true
  names : ∀ c ∈ table.constraints, identifier c.name = true
  distinct : (table.constraints.map Constraint.name).Nodup
  items : ∀ item ∈ table.items, SelfContained false item
  expressions : ∀ c ∈ table.constraints, ∃ x ∈ c.expression, isWhitespace x = false

theorem word_of_identifier {value : List Char} (h : identifier value = true) :
    value ≠ [] ∧ ∀ c ∈ value, isWord c = true := by
  obtain ⟨hne, _, hall, _⟩ := of_decide_eq_true h
  exact ⟨hne, List.all_eq_true.mp hall⟩

theorem not_word {value : List Char} (h : identifier value = true) {c : Char} (hc : isWord c = false) :
    c ∉ value := by
  intro hmem
  rw [(word_of_identifier h).2 c hmem] at hc
  cases hc

/-! ### Trimming -/

theorem dropWhile_head {p : Char → Bool} {c : Char} (h : p c = false) (text : List Char) :
    (c :: text).dropWhile p = c :: text := List.dropWhile_cons_of_neg (by simp [h])

theorem rdropWhile_append {p : Char → Bool} {a b : List Char} (h : ∃ x ∈ b, p x = false) :
    (a ++ b).rdropWhile p = a ++ b.rdropWhile p := by
  unfold List.rdropWhile
  rw [List.reverse_append, List.dropWhile_append, if_neg, List.reverse_append, List.reverse_reverse]
  intro hempty
  obtain ⟨x, hx, hfalse⟩ := h
  have hall := List.dropWhile_eq_nil_iff.mp (List.isEmpty_iff.mp hempty) x (List.mem_reverse.mpr hx)
  rw [hfalse] at hall
  cases hall

theorem rdropWhile_all {p : Char → Bool} {a b : List Char} (h : ∀ x ∈ b, p x = true) :
    (a ++ b).rdropWhile p = a.rdropWhile p := by
  unfold List.rdropWhile
  have hnil : b.reverse.dropWhile p = [] :=
    List.dropWhile_eq_nil_iff.mpr fun x hx => h x (List.mem_reverse.mp hx)
  rw [List.reverse_append, List.dropWhile_append, hnil]
  rfl

/-- What trimming at the end leaves is trimmed like the whole. -/
theorem trim_rdropWhile {text : List Char} (h : ∃ x ∈ text, isWhitespace x = false) :
    trim (text.rdropWhile isWhitespace) = trim text := by
  have hsplit := List.rdropWhile_append_rtakeWhile (l := text) (p := isWhitespace)
  have hspace : ∀ x ∈ text.rtakeWhile isWhitespace, isWhitespace x = true := fun x => List.mem_rtakeWhile_imp
  obtain ⟨x, hx, hfalse⟩ := h
  rw [← hsplit, List.mem_append] at hx
  have hmem : x ∈ text.rdropWhile isWhitespace := by
    refine hx.resolve_right fun hx => ?_
    rw [hspace x hx] at hfalse
    cases hfalse
  have hne : (text.rdropWhile isWhitespace).dropWhile isWhitespace ≠ [] := by
    intro hnil
    rw [List.dropWhile_eq_nil_iff.mp hnil x hmem] at hfalse
    cases hfalse
  have hdrop : text.dropWhile isWhitespace =
      (text.rdropWhile isWhitespace).dropWhile isWhitespace ++ text.rtakeWhile isWhitespace := by
    conv_lhs => rw [← hsplit]
    rw [List.dropWhile_append, if_neg (by simpa using hne)]
  unfold trim trimMatches
  rw [hdrop, rdropWhile_all hspace]

/-! ### Items -/

theorem unquote_backquotes {name : List Char} (h : identifier name = true) :
    unquote (backquote :: name ++ [backquote]) = name := by
  obtain ⟨hne, _⟩ := word_of_identifier h
  have hquote : backquote ∉ name := not_word h (by decide)
  have htrim : trim (backquote :: name ++ [backquote]) = backquote :: name ++ [backquote] := by
    unfold trim trimMatches
    rw [List.cons_append, dropWhile_head (by decide), ← List.cons_append,
      rdropWhile_append ⟨backquote, by simp, by decide⟩]
    rfl
  have hend : ∀ c ∈ [backquote], decide (c = Char.ofNat 96) = true := by
    intro c hc
    rw [List.mem_singleton.mp hc]
    rfl
  have hfront : (name ++ [backquote]).dropWhile (fun c => decide (c = Char.ofNat 96)) = name ++ [backquote] := by
    cases name with
    | nil => exact absurd rfl hne
    | cons c rest => exact dropWhile_head (decide_eq_false fun he => hquote (by rw [he]; exact List.mem_cons_self)) _
  rw [unquote, htrim, trimMatches, List.cons_append, List.dropWhile_cons_of_pos (by decide), hfront,
    rdropWhile_all hend]
  refine List.rdropWhile_eq_self_iff.mpr fun hlast hq => hquote ?_
  rw [show backquote = name.getLast hlast from (of_decide_eq_true hq).symm]
  exact List.getLast_mem hlast

theorem CHECK_chars : CHECK = ' ' :: ['C', 'H', 'E', 'C', 'K', ' '] := by decide +kernel

theorem constraint_form {c : Constraint} (hname : identifier c.name = true)
    (hexpression : ∃ x ∈ c.expression, isWhitespace x = false) :
    form c.item = some (c.name, trim c.expression) := by
  have htrim : trim c.item = CONSTRAINT ++ (backquote :: c.name ++ [backquote] ++ CHECK ++
      c.expression.rdropWhile isWhitespace) := by
    unfold trim trimMatches Constraint.item
    have hhead : (CONSTRAINT ++ backquote :: c.name ++ [backquote] ++ CHECK ++ c.expression).dropWhile
        isWhitespace = CONSTRAINT ++ backquote :: c.name ++ [backquote] ++ CHECK ++ c.expression :=
      dropWhile_head (by decide) _
    rw [hhead, rdropWhile_append hexpression]
    simp
  have hstrip : constraintItem c.item = some (backquote :: c.name ++ [backquote] ++ CHECK ++
      c.expression.rdropWhile isWhitespace) := by
    rw [constraintItem, htrim, stripPrefix, if_pos (List.isPrefixOf_iff_prefix.mpr (List.prefix_append _ _)),
      List.drop_left]
  have hspace : ' ' ∉ backquote :: c.name ++ [backquote] := by
    have hword : ' ' ∉ c.name := not_word hname (by decide)
    have hquote : ' ' ≠ backquote := by decide
    simp [hword, hquote]
  have hcheck : splitText CHECK (backquote :: c.name ++ [backquote] ++ CHECK ++
      c.expression.rdropWhile isWhitespace) = some (backquote :: c.name ++ [backquote],
        c.expression.rdropWhile isWhitespace) := by
    rw [List.append_assoc, CHECK_chars]
    exact splitText_append hspace
  rw [form, hstrip, Option.bind_some, hcheck, Option.map_some]
  show some (unquote (backquote :: c.name ++ [backquote]), trim (c.expression.rdropWhile isWhitespace)) = _
  rw [unquote_backquotes hname, trim_rdropWhile hexpression]

/-- An item that starts with another letter is no constraint. -/
theorem plain_item {c : Char} (hspace : isWhitespace c = false) (hc : c ≠ 'C') (rest : List Char) :
    constraintItem (c :: rest) = none ∧ form (c :: rest) = none := by
  have hnone : constraintItem (c :: rest) = none := by
    unfold constraintItem trim trimMatches
    rw [dropWhile_head hspace, stripPrefix, if_neg]
    intro hfront
    obtain ⟨tail, htail⟩ := (List.isPrefixOf_iff_prefix.mp hfront).trans (List.rdropWhile_prefix _ _)
    exact hc (List.cons.inj htail).1.symm
  exact ⟨hnone, by rw [form, hnone]; rfl⟩

theorem table_forms {table : Table} {database : List Char} (h : table.Renders database) :
    Checked table.items ∧ table.items.filterMap form = table.constraints.map fun c => (c.name, trim c.expression) := by
  have hcolumn : ∀ c ∈ table.columns, constraintItem c.item = none ∧ form c.item = none := fun c _ =>
    plain_item (by decide) (by decide) _
  have hindex : ∀ i ∈ table.indexes, constraintItem i.item = none ∧ form i.item = none := fun i _ =>
    plain_item (show isWhitespace 'I' = false from by decide) (by decide) _
  have hconstraint : ∀ c ∈ table.constraints, form c.item = some (c.name, trim c.expression) := fun c hc =>
    constraint_form (h.names c hc) (h.expressions c hc)
  constructor
  · intro item hitem
    simp only [Table.items, List.mem_append, List.mem_map] at hitem
    rcases hitem with (⟨c, hc, rfl⟩ | ⟨i, hi, rfl⟩) | ⟨c, hc, rfl⟩
    · exact fun hne => absurd (hcolumn c hc).1 hne
    · exact fun hne => absurd (hindex i hi).1 hne
    · intro _
      rw [hconstraint c hc]
      exact Option.some_ne_none _
  · have hfirst : (table.columns.map Column.item).filterMap form = [] := by
      rw [List.filterMap_eq_nil_iff]
      intro item hitem
      obtain ⟨c, hc, rfl⟩ := List.mem_map.mp hitem
      exact (hcolumn c hc).2
    have hsecond : (table.indexes.map Index.item).filterMap form = [] := by
      rw [List.filterMap_eq_nil_iff]
      intro item hitem
      obtain ⟨i, hi, rfl⟩ := List.mem_map.mp hitem
      exact (hindex i hi).2
    rw [Table.items, List.filterMap_append, List.filterMap_append, hfirst, hsecond, List.filterMap_map]
    show table.constraints.filterMap (form ∘ Constraint.item) = _
    rw [← List.filterMap_eq_map]
    exact List.filterMap_congr hconstraint

theorem table_constraints {table : Table} {database : List Char} (h : table.Renders database) :
    constraints (table.statement database) =
      .ok (table.constraints.map fun c => (c.name, trim c.expression)) := by
  have hfront : '(' ∉ "CREATE TABLE IF NOT EXISTS ".toList ++ database ++ '.' :: table.name ++ [' '] := by
    have hdatabase : '(' ∉ database := not_word h.database (by decide)
    have hname : '(' ∉ table.name := not_word h.name (by decide)
    simp [hdatabase, hname]
  obtain ⟨hchecked, hforms⟩ := table_forms h
  have hkeyed : Keyed (table.items.filterMap form) := by
    show ((table.items.filterMap form).map Prod.fst).Nodup
    rw [hforms, List.map_map]
    exact h.distinct
  have hstatement : table.statement database =
      ("CREATE TABLE IF NOT EXISTS ".toList ++ database ++ '.' :: table.name ++ [' ']) ++
        '(' :: definition table.items (" ENGINE = ".toList ++ table.engine ++
          ((table.partitionBy.map fun p => " PARTITION BY ".toList ++ p).getD []) ++ " ORDER BY (".toList ++
          [','].intercalate table.orderBy ++ ") SETTINGS index_granularity = 8192".toList) := by
    unfold Table.statement definition
    simp
  rw [hstatement, constraints_ok hfront h.items]
  exact ⟨hchecked, hkeyed, hforms.symm⟩

/-! ## Results -/

/-- A stored definition whose items keep their commas in brackets or quotes gives back the
constraints of its items; it is refused when two of them share a name or one has no check. A
rendered table gives back its own constraints. -/
theorem stored_constraints {front : List Char} (hfront : '(' ∉ front) {items : List (List Char)}
    (hitems : ∀ item ∈ items, SelfContained false item) (rest : List Char) :
    (∀ result, constraints (front ++ '(' :: definition items rest) = .ok result ↔
      Checked items ∧ Keyed (items.filterMap form) ∧ result = items.filterMap form) ∧
    ((∃ error, constraints (front ++ '(' :: definition items rest) = .error error) ↔
      ¬ (Checked items ∧ Keyed (items.filterMap form))) ∧
    ∀ (table : Table) (database : List Char), table.Renders database →
      constraints (table.statement database) =
        .ok (table.constraints.map fun c => (c.name, trim c.expression)) := by
  refine ⟨fun result => constraints_ok hfront hitems rest, ?_, fun table database h => table_constraints h⟩
  cases hrun : constraints (front ++ '(' :: definition items rest) with
  | ok result =>
    obtain ⟨hchecked, hkeyed, _⟩ := (constraints_ok hfront hitems rest).mp hrun
    refine iff_of_false ?_ (not_not.mpr ⟨hchecked, hkeyed⟩)
    rintro ⟨error, herror⟩
    cases herror
  | error error =>
    refine iff_of_true ⟨error, rfl⟩ ?_
    rintro ⟨hchecked, hkeyed⟩
    rw [(constraints_ok hfront hitems rest).mpr ⟨hchecked, hkeyed, rfl⟩] at hrun
    cases hrun

theorem outside_plain {text : List Char} (h : text.any isQuote = false) : Outside text text := by
  induction text with
  | nil => exact Outside.nil
  | cons c text ih =>
    rw [List.any_cons, Bool.or_eq_false_iff] at h
    exact Outside.char h.1 (ih h.2)

theorem outside_append {a b x y : List Char} (ha : Outside a x) (hb : Outside b y) :
    Outside (a ++ b) (x ++ y) := by
  induction ha with
  | nil => exact hb
  | char hc _ ih => exact Outside.char hc ih
  | quoted hq hbody _ ih =>
    rw [List.cons_append, List.append_assoc]
    exact Outside.quoted hq hbody ih

/-- A table of one column and one constraint. -/
def sampleTable : Table where
  name := "t".toList
  columns := [⟨"a".toList, "UInt8".toList, none⟩]
  engine := "Memory".toList
  orderBy := ["a".toList]
  partitionBy := none
  indexes := []
  constraints := [⟨"c".toList, "in(a,(1,2))".toList⟩]

theorem sampleTable_renders : sampleTable.Renders "d".toList := by
  have hname : ∀ {c : Char}, c ≠ backquote → c ≠ '\\' →
      Outside (backquote :: ([c] ++ [backquote])) [] := fun hc hslash =>
    Outside.quoted (by decide) (Body.char hc hslash Body.nil) Outside.nil
  have htype : Outside " UInt8".toList " UInt8".toList := outside_plain rfl
  have hword : Outside CONSTRAINT CONSTRAINT := outside_plain rfl
  have hcheck : Outside " CHECK in(a,(1,2))".toList " CHECK in(a,(1,2))".toList := outside_plain rfl
  have hcolumn := outside_append (hname (c := 'a') (by decide) (by decide)) htype
  have hconstraint := outside_append hword (outside_append (hname (c := 'c') (by decide) (by decide)) hcheck)
  have hitems : sampleTable.items = [backquote :: (['a'] ++ [backquote]) ++ " UInt8".toList,
      CONSTRAINT ++ (backquote :: (['c'] ++ [backquote]) ++ " CHECK in(a,(1,2))".toList)] := by decide +kernel
  refine ⟨by decide, by decide, by decide, by decide, ?_, ?_⟩
  · intro item hitem
    rw [hitems] at hitem
    rcases List.mem_cons.mp hitem with rfl | hitem
    · exact ⟨_, hcolumn, by decide⟩
    · obtain rfl := List.mem_singleton.mp hitem
      exact ⟨_, hconstraint, by decide⟩
  · intro c hc
    rw [List.mem_singleton.mp hc]
    exact ⟨'i', List.elem_iff.mp rfl, by decide⟩

theorem sample_stored_constraints :
    constraints ("CREATE TABLE t ".toList ++ '(' :: definition sampleTable.items " ENGINE".toList) =
      .ok [("c".toList, "in(a,(1,2))".toList)] ∧
    constraints (sampleTable.statement "d".toList) = .ok [("c".toList, "in(a,(1,2))".toList)] := by
  have hfront : '(' ∉ "CREATE TABLE t ".toList := by decide
  obtain ⟨hresult, _, htable⟩ := stored_constraints hfront sampleTable_renders.items " ENGINE".toList
  obtain ⟨hchecked, hforms⟩ := table_forms sampleTable_renders
  refine ⟨(hresult _).mpr ⟨hchecked, ?_, hforms.symm⟩, htable _ _ sampleTable_renders⟩
  rw [hforms]
  exact List.nodup_singleton _

/-- A comma outside brackets ends the item, whatever its text is meant to be. -/
theorem open_comma_splits : ¬ ∀ (front : List Char) (items : List (List Char)) (rest : List Char)
    (result : List (List Char × List Char)), '(' ∉ front → (∀ item ∈ items, SelfContained true item) →
    (constraints (front ++ '(' :: definition items rest) = .ok result ↔
      Checked items ∧ Keyed (items.filterMap form) ∧ result = items.filterMap form) := by
  intro h
  have hitems : ∀ item ∈ ["CONSTRAINT a CHECK 1,2".toList], SelfContained true item := by
    intro item hitem
    rw [List.mem_singleton.mp hitem]
    exact ⟨_, outside_plain rfl, by decide⟩
  have hread := (h [] ["CONSTRAINT a CHECK 1,2".toList] [] [("a".toList, "1".toList)] (by decide) hitems).mp
    (by decide)
  exact absurd hread.2.2 (by decide)

end AmlReal.Warehouse.Constraints
