import AmlReal.Foundations.Checks
import AmlReal.Foundations.Json

/-! # Networks, hashes and exact integers

The value types every warehouse row is made of (`types.rs`, `values.rs`), and
the checked arithmetic of the code's `u64` counters. -/

namespace AmlReal.Warehouse.Values
open AmlReal.Foundations.Checks AmlReal.Foundations.Json

inductive Network where
  | tron
  | ethereum
  | bsc
  | bitcoin
  deriving DecidableEq, Repr, Inhabited

def Network.id : Network → String
  | .tron => "tron:mainnet"
  | .ethereum => "eip155:1"
  | .bsc => "eip155:56"
  | .bitcoin => "bip122:000000000019d6689c085ae165831e93"

def Network.evm : Network → Bool
  | .ethereum | .bsc => true
  | .tron | .bitcoin => false

def u64Size : Nat := 2 ^ 64

def checkedAdd (a b : Nat) : Option Nat := if a + b < u64Size then some (a + b) else none

theorem checkedAdd_eq_some {a b c : Nat} (h : checkedAdd a b = some c) :
    c = a + b ∧ a + b < u64Size := by
  unfold checkedAdd at h
  split at h
  · rename_i hlt; exact ⟨(Option.some.inj h).symm, hlt⟩
  · cases h

/-- `u8::is_ascii_hexdigit` -/
def isHexDigit (c : Char) : Bool :=
  c.isDigit || ('a' ≤ c && c ≤ 'f') || ('A' ≤ c && c ≤ 'F')

def hex (value : String) (length : Nat) : Bool :=
  value.toList.length == length && value.toList.all isHexDigit

def stripPrefix (p value : String) : Option String :=
  if p.toList.isPrefixOf value.toList then
    some (String.ofList (value.toList.drop p.toList.length))
  else none

def toAsciiLowercase (value : String) : String := String.ofList (value.toList.map Char.toLower)

def normalizeHash (network : Network) (value : String) : Except String String :=
  let digits := if network.evm then
      ((stripPrefix "0x" value).or (stripPrefix "0X" value)).getD value
    else value
  if hex digits 64 then .ok ((if network.evm then "0x" else "") ++ toAsciiLowercase digits)
  else .error "invalid network hash"

/-- A hash in its stored spelling: normalizing it changes nothing. -/
def canonicalHash (network : Network) (value : String) : Bool :=
  match normalizeHash network value with
  | .ok normalized => normalized == value
  | .error _ => false

/-! ## Texts -/

/-- `char::is_whitespace` -/
def isWhitespace (c : Char) : Bool :=
  (9 ≤ c.toNat && c.toNat ≤ 13) || c.toNat ∈ [0x20, 0x85, 0xa0, 0x1680, 0x2028, 0x2029, 0x202f,
    0x205f, 0x3000] || (0x2000 ≤ c.toNat && c.toNat ≤ 0x200a)

/-- `char::is_control` -/
def isControl (c : Char) : Bool := c.toNat < 0x20 || (0x7f ≤ c.toNat && c.toNat < 0xa0)

/-- `s.trim().is_empty()` -/
def blank (s : String) : Bool := s.toList.all isWhitespace

/-- `str::split_once` -/
def splitOnce (separator : Char) (s : String) : Option (String × String) :=
  match s.toList.span (· ≠ separator) with
  | (_, []) => none
  | (head, _ :: tail) => some (String.ofList head, String.ofList tail)

/-- The namespace of an evidence reference: lower case, then digits and underscores too. -/
def evidenceScheme : List Char → Bool
  | [] => false
  | c :: rest => c.isLower && rest.all fun c => c.isLower || c.isDigit || c == '_'

def evidenceRef (network : Network) (value : String) : Except String Unit := do
  ensure (value.toList.all (!isControl ·)) "evidence reference contains control characters"
  let (scheme, payload) ← context (splitOnce ':' value) "evidence reference needs a namespace"
  ensure (evidenceScheme scheme.toList ∧ payload ≠ "") "invalid evidence namespace/payload"
  if scheme = "tx" ∨ scheme = "block" then
    ensure (canonicalHash network payload) "noncanonical evidence hash"
  else if scheme = "outpoint" then do
    ensure (network = .bitcoin) "outpoint evidence requires Bitcoin"
    let (hash, index) ← context (splitOnce ':' payload) "outpoint index missing"
    ensure (canonicalHash network hash) "noncanonical outpoint hash"
    ensure ((parseU64 index).any fun n => n < 2 ^ 32 ∧ n.repr = index)
      "noncanonical outpoint index"

example : canonicalHash .bitcoin
    "00000000000000000000000000000000000000000000000000000000000000a1" = true := by decide
example : canonicalHash .ethereum
    "00000000000000000000000000000000000000000000000000000000000000a1" = false := by decide

end AmlReal.Warehouse.Values
