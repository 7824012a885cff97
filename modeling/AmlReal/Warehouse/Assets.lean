import Mathlib.Data.List.GetD
import AmlReal.Tron.WalletIdentity
import AmlReal.Warehouse.Amounts
import AmlReal.Warehouse.Values

/-! # Asset identities

`AssetId` of `values.rs`. A raw identity is a spelling of an asset: the native
one, or a token of a standard, a contract and perhaps a token id. Parsing gives
the asset's own spelling. -/

namespace AmlReal.Warehouse.Assets
open AmlReal.Foundations AmlReal.Foundations.Checks AmlReal.Foundations.Decimals
open AmlReal.Foundations.JoinedText AmlReal.Warehouse.Amounts AmlReal.Warehouse.Values
open AmlReal.Tron.AddressSpellings (Sha256 hexDigits LOWER tronContract)
open AmlReal.Tron.AddressForms (SpellsBytes Account)
open AmlReal.Tron.WalletIdentity (Names contractForm)

/-- `Network::id` as a text. -/
def networkId (network : Network) : List Char := network.id.toList

/-- `Network::native_asset` -/
def nativeAsset : Network → List Char
  | .tron => "native:TRX".toList
  | .ethereum => "native:ETH".toList
  | .bsc => "native:BNB".toList
  | .bitcoin => "native:BTC".toList

structure AssetId where
  network : Network
  value : List Char
  collection : Bool
  deriving DecidableEq

def AssetId.canonicalKey (asset : AssetId) : List Char := networkId asset.network ++ '/' :: asset.value

/-- `str::eq_ignore_ascii_case` -/
def eqIgnoreAsciiCase (a b : List Char) : Prop := a.map Char.toLower = b.map Char.toLower

instance (a b : List Char) : Decidable (eqIgnoreAsciiCase a b) := inferInstanceAs (Decidable (_ = _))

/-- `str::strip_prefix` -/
def stripPrefix (front text : List Char) : Option (List Char) :=
  if front.isPrefixOf text then some (text.drop front.length) else none

/-- The namespaces of network identities. -/
def NAMESPACES : List (List Char) := ["eip155".toList, "bip122".toList, "tron".toList]

/-- The identity without the prefix of its network. -/
def localPart (network : Network) (raw : List Char) : Except String (List Char) :=
  match splitOnce '/' raw with
  | none => .ok raw
  | some (before, rest) =>
    if NAMESPACES.any fun name => (name ++ [':']).isPrefixOf before then do
      ensure (before = networkId network) "asset belongs to another network"
      pure rest
    else .ok raw

/-- The token standards of a network. -/
def standardNames (network : Network) : List (List Char) :=
  if network.evm then ["erc20".toList, "erc721".toList, "erc1155".toList]
  else ["trc10".toList, "trc20".toList, "trc721".toList]

def NFT : List (List Char) := ["erc721".toList, "erc1155".toList, "trc721".toList]

section
variable (sha : Sha256)

def parseContract (network : Network) (standard contract : List Char) (token : Option (List Char)) :
    Except String (List Char) :=
  if standard = "trc10".toList then do
    ensure (token = none) "TRC10 does not carry an NFT token id"
    parse contract
  else if network.evm then do
    let digits := ((stripPrefix ['0', 'x'] contract).or (stripPrefix ['0', 'X'] contract)).getD contract
    ensure (AmlReal.Tron.AddressSpellings.hex digits 40) "invalid EVM asset contract"
    pure ('0' :: 'x' :: digits.map Char.toLower)
  else tronContract sha contract

def parseSuffix (token : Option (List Char)) : Except String (List Char) :=
  match token with
  | none => .ok []
  | some token => ('/' :: ·) <$> parse token

/-- The contract and the token id of an identity. -/
def splitToken (identity : List Char) : List Char × Option (List Char) :=
  match splitOnce '/' identity with
  | none => (identity, none)
  | some (contract, token) => (contract, some token)

/-- `AssetId::parse_legacy` from its local part on. -/
def parseLocal (network : Network) (value : List Char) : Except String AssetId :=
  let native := nativeAsset network
  if eqIgnoreAsciiCase value native ∨ eqIgnoreAsciiCase value (native.drop 7) then
    .ok ⟨network, native, false⟩
  else do
    ensure (network ≠ .bitcoin) "Bitcoin token capability is not applicable"
    let parts ← context (splitOnce ':' value) "unqualified asset identity"
    let standard := parts.1.map Char.toLower
    ensure (standard ∈ standardNames network) "asset standard not applicable to network"
    let (contract, token) := splitToken parts.2
    let contract ← parseContract sha network standard contract token
    ensure (standard ∈ NFT ∨ token = none) "fungible asset cannot carry a token id"
    let suffix ← parseSuffix token
    pure ⟨network, standard ++ ':' :: (contract ++ suffix), standard ∈ NFT ∧ token = none⟩

def parseLegacy (network : Network) (raw : List Char) : Except String AssetId := do
  let value ← localPart network raw
  parseLocal sha network value

/-- `AssetId::parse` -/
def parseCanonical (network : Network) (value : List Char) : Except String AssetId := do
  let asset ← parseLegacy sha network value
  ensure (asset.value = value) "asset must use canonical network-local identity"
  pure asset

end

/-! ## Assets -/

inductive Standard where
  | erc20
  | erc721
  | erc1155
  | trc10
  | trc20
  | trc721
  deriving DecidableEq

namespace Standard

def name : Standard → List Char
  | erc20 => "erc20".toList
  | erc721 => "erc721".toList
  | erc1155 => "erc1155".toList
  | trc10 => "trc10".toList
  | trc20 => "trc20".toList
  | trc721 => "trc721".toList

def nft : Standard → Bool
  | erc721 | erc1155 | trc721 => true
  | erc20 | trc10 | trc20 => false

def evm : Standard → Bool
  | erc20 | erc721 | erc1155 => true
  | trc10 | trc20 | trc721 => false

/-- Whether the network has tokens of the standard. -/
def appliesTo (standard : Standard) (network : Network) : Bool :=
  network ≠ .bitcoin ∧ standard.evm = network.evm

end Standard

/-- What identifies a token's contract: bytes, an account, or the number of a TRC-10 token. -/
inductive Contract where
  | bytes (bytes : List Nat)
  | account (account : Account)
  | number (number : Nat)

def Contract.text : Contract → List Char
  | bytes ds => '0' :: 'x' :: ds.flatMap (hexDigits LOWER)
  | account a => contractForm a
  | number n => Nat.toDigits 10 n

inductive Asset where
  | native
  | token (standard : Standard) (contract : Contract) (tokenId : Option Nat)

/-- The suffix of a token id. -/
def idText : Option Nat → List Char
  | none => []
  | some n => '/' :: Nat.toDigits 10 n

/-- The spelling that parsing gives an asset. -/
def Asset.canonical (network : Network) : Asset → List Char
  | native => nativeAsset network
  | token standard contract tokenId => standard.name ++ ':' :: (contract.text ++ idText tokenId)

/-- A token of an NFT standard without an id stands for the collection. -/
def Asset.collection : Asset → Bool
  | native => false
  | token standard _ tokenId => standard.nft ∧ tokenId = none

def Asset.assetId (network : Network) (asset : Asset) : AssetId :=
  ⟨network, asset.canonical network, asset.collection⟩

/-! ## Spellings -/

section
variable (sha : Sha256)

inductive ContractSpelling : Standard → Contract → List Char → Prop
  | number {text : List Char} : Digits text → number text < 2 ^ 256 →
    ContractSpelling .trc10 (.number (number text)) text
  | bytes {standard : Standard} {bytes : List Nat} {text : List Char} : standard.evm = true →
    bytes.length = 20 → SpellsBytes bytes text → ContractSpelling standard (.bytes bytes) text
  | account {standard : Standard} {a : Account} {text : List Char} : standard.evm = false →
    standard ≠ .trc10 → Names sha a text → ContractSpelling standard (.account a) text

/-- The spellings of a token id. -/
inductive IdSpelling : Standard → Option Nat → List Char → Prop
  | none {standard : Standard} : IdSpelling standard none []
  | some {standard : Standard} {text : List Char} : standard.nft = true → Digits text →
    number text < 2 ^ 256 → IdSpelling standard (some (number text)) ('/' :: text)

/-- The spellings of an asset inside its network. -/
inductive LocalSpelling (network : Network) : Asset → List Char → Prop
  | native {value : List Char} : eqIgnoreAsciiCase value (nativeAsset network) ∨
    eqIgnoreAsciiCase value ((nativeAsset network).drop 7) → LocalSpelling network .native value
  | token {standard : Standard} {contract : Contract} {tokenId : Option Nat} {name text suffix : List Char} :
    standard.appliesTo network = true → name.map Char.toLower = standard.name →
    ContractSpelling sha standard contract text → IdSpelling standard tokenId suffix →
    LocalSpelling network (.token standard contract tokenId) (name ++ ':' :: (text ++ suffix))

/-- The raw identities of an asset: its spellings, with or without the network in front. -/
inductive Spelling (network : Network) (asset : Asset) : List Char → Prop
  | plain {value : List Char} : LocalSpelling sha network asset value → Spelling network asset value
  | qualified {value : List Char} : LocalSpelling sha network asset value →
    Spelling network asset (networkId network ++ '/' :: value)

end

/-! ## Contracts and token ids -/

theorem toLower_of_hexDigits {bytes : List Nat} (h : ∀ b ∈ bytes, b < 256) :
    HexText.decode (bytes.flatMap (hexDigits LOWER)) = some bytes :=
  AmlReal.Tron.AddressForms.decode_hexDigits h

/-- The characters of the digits that are written. -/
theorem mem_hexDigits {bytes : List Nat} {c : Char} (h : c ∈ bytes.flatMap (hexDigits LOWER)) :
    c ∈ LOWER ∨ c = '0' := by
  obtain ⟨b, _, hc⟩ := List.mem_flatMap.mp h
  have hone : ∀ d, LOWER.getD d '0' ∈ LOWER ∨ LOWER.getD d '0' = '0' := by
    intro d
    by_cases hd : d < LOWER.length
    · rw [List.getD_eq_getElem _ _ hd]
      exact Or.inl (List.getElem_mem hd)
    · exact Or.inr (List.getD_eq_default _ _ (by omega))
  rcases List.mem_pair.mp hc with rfl | rfl
  · exact hone _
  · exact hone _

theorem Contract.slash_notMem (contract : Contract) : '/' ∉ contract.text := by
  have hhex : ∀ bytes : List Nat, '/' ∉ bytes.flatMap (hexDigits LOWER) := fun bytes h => by
    rcases mem_hexDigits h with h | h
    · exact absurd h (by decide)
    · exact absurd h (by decide)
  cases contract with
  | bytes bytes =>
    intro h
    rcases List.mem_cons.mp h with h | h
    · exact absurd h (by decide)
    · rcases List.mem_cons.mp h with h | h
      · exact absurd h (by decide)
      · exact hhex bytes h
  | account a => exact hhex _
  | number n => exact fun h => absurd (isDigit_toDigits h) (by decide)

/-- Without its prefix an EVM contract is its digits. -/
theorem evm_digits {bytes : List Nat} {cs text : List Char} (hdecode : HexText.decode cs = some bytes)
    (hform : text = cs ∨ text = '0' :: 'x' :: cs ∨ text = '0' :: 'X' :: cs) :
    ((stripPrefix ['0', 'x'] text).or (stripPrefix ['0', 'X'] text)).getD text = cs := by
  rcases hform with rfl | rfl | rfl
  · -- the second digit is not the letter of a prefix
    have hno : ∀ letter, HexText.isHex letter = false → stripPrefix ['0', letter] text = none := by
      intro letter hletter
      refine if_neg fun hprefix => ?_
      have hall := HexText.isHex_of_decode hdecode
      obtain ⟨rest, rfl⟩ := List.isPrefixOf_iff_prefix.mp hprefix
      simp only [List.cons_append, List.all_cons, Bool.and_eq_true] at hall
      rw [hletter] at hall
      exact absurd hall.2.1 (by decide)
    rw [hno 'x' (by decide), hno 'X' (by decide)]
    rfl
  · simp [stripPrefix]
  · simp [stripPrefix]

theorem evm_form {text digits : List Char}
    (h : ((stripPrefix ['0', 'x'] text).or (stripPrefix ['0', 'X'] text)).getD text = digits) :
    text = digits ∨ text = '0' :: 'x' :: digits ∨ text = '0' :: 'X' :: digits := by
  have hstrip : ∀ letter rest, stripPrefix ['0', letter] text = some rest → text = '0' :: letter :: rest := by
    intro letter rest hrest
    unfold stripPrefix at hrest
    split_ifs at hrest with hprefix
    obtain ⟨tail, rfl⟩ := List.isPrefixOf_iff_prefix.mp hprefix
    obtain rfl := Option.some.inj hrest
    rfl
  cases hx : stripPrefix ['0', 'x'] text with
  | some rest =>
    rw [hx] at h
    exact Or.inr (Or.inl (h ▸ hstrip 'x' rest hx))
  | none =>
    cases hX : stripPrefix ['0', 'X'] text with
    | some rest =>
      rw [hx, hX] at h
      exact Or.inr (Or.inr (h ▸ hstrip 'X' rest hX))
    | none =>
      rw [hx, hX] at h
      exact Or.inl h

section
variable (sha : Sha256)

theorem parseContract_evm {network : Network} {standard : Standard} (hstandard : standard.evm = true)
    (hnetwork : network.evm = true) {text form : List Char} {token : Option (List Char)} :
    parseContract sha network standard.name text token = .ok form ↔
      ∃ contract, ContractSpelling sha standard contract text ∧ form = contract.text := by
  have htrc : standard.name ≠ "trc10".toList := by cases standard <;> first | decide | cases hstandard
  rw [parseContract, if_neg htrc, if_pos hnetwork]
  constructor
  · intro h
    obtain ⟨_, hhex, h⟩ := bind_ok h
    obtain rfl := Except.ok.inj h
    generalize hdigits : ((stripPrefix ['0', 'x'] text).or (stripPrefix ['0', 'X'] text)).getD text = digits at *
    obtain ⟨hlength, hall⟩ : digits.length = 40 ∧ digits.all HexText.isHex = true := by
      simpa [AmlReal.Tron.AddressSpellings.hex] using ensure_ok hhex
    obtain ⟨bytes, hbytes⟩ := HexText.exists_decode hall (by omega)
    have hcount := AmlReal.Tron.AddressForms.decode_length hbytes
    refine ⟨.bytes bytes, .bytes hstandard (by omega) ⟨digits, hbytes, evm_form hdigits⟩, ?_⟩
    rw [AmlReal.Tron.WalletIdentity.toLower_decode hbytes]
    rfl
  · rintro ⟨contract, hspelling, rfl⟩
    cases hspelling with
    | number => cases hstandard
    | account hevm => rw [hstandard] at hevm; cases hevm
    | @bytes _ bytes _ _ hlength hspells =>
      obtain ⟨digits, hdecode, hform⟩ := hspells
      have hcount := AmlReal.Tron.AddressForms.decode_length hdecode
      have hhex : AmlReal.Tron.AddressSpellings.hex digits 40 = true := by
        simp [AmlReal.Tron.AddressSpellings.hex, HexText.isHex_of_decode hdecode, hcount, hlength]
      simp only [evm_digits hdecode hform, ensure_eq hhex, ok_bind,
        AmlReal.Tron.WalletIdentity.toLower_decode hdecode]
      rfl

theorem parseContract_tron {network : Network} {standard : Standard} (hstandard : standard.evm = false)
    (hnetwork : network.evm = false) {text form : List Char} {token : Option (List Char)} :
    parseContract sha network standard.name text token = .ok form ↔ (standard = .trc10 → token = none) ∧
      ∃ contract, ContractSpelling sha standard contract text ∧ form = contract.text := by
  by_cases htrc : standard = .trc10
  · subst htrc
    rw [parseContract, if_pos (show Standard.trc10.name = "trc10".toList from rfl)]
    constructor
    · intro h
      obtain ⟨_, htoken, h⟩ := bind_ok h
      obtain ⟨hdigits, hlt, rfl⟩ := parse_ok.mp h
      exact ⟨fun _ => ensure_ok htoken, _, .number hdigits hlt, rfl⟩
    · rintro ⟨htoken, contract, hspelling, rfl⟩
      cases hspelling with
      | number hdigits hlt =>
        rw [ensure_eq (htoken rfl), ok_bind]
        exact parse_ok.mpr ⟨hdigits, hlt, rfl⟩
      | bytes hevm => cases hevm
      | account _ hne => exact absurd rfl hne
  · have hname : standard.name ≠ "trc10".toList := by
      cases standard <;> first | decide | exact absurd rfl htrc
    rw [parseContract, if_neg hname, if_neg (by rw [hnetwork]; decide),
      AmlReal.Tron.WalletIdentity.tronContract_ok]
    constructor
    · rintro ⟨a, hnames, rfl⟩
      exact ⟨fun h => absurd h htrc, .account a, .account hstandard htrc hnames, rfl⟩
    · rintro ⟨_, contract, hspelling, rfl⟩
      cases hspelling with
      | number => exact absurd rfl htrc
      | bytes hevm => rw [hstandard] at hevm; cases hevm
      | account _ _ hnames => exact ⟨_, hnames, rfl⟩

/-- No spelling of a contract contains the separator of token ids. -/
theorem contract_slash {standard : Standard} {contract : Contract} {text : List Char}
    (h : ContractSpelling sha standard contract text) : '/' ∉ text := by
  have hhex : ∀ cs : List Char, cs.all HexText.isHex = true → '/' ∉ cs := fun cs hall hmem =>
    absurd (List.all_eq_true.mp hall _ hmem) (by decide)
  cases h with
  | number hdigits => exact fun hmem => absurd (hdigits.2 _ hmem) (by decide)
  | bytes _ _ hspells =>
    obtain ⟨cs, hdecode, hform⟩ := hspells
    have hcs := hhex cs (HexText.isHex_of_decode hdecode)
    rcases hform with rfl | rfl | rfl
    · exact hcs
    · simp [hcs]
    · simp [hcs]
  | account _ _ hnames =>
    rcases hnames with hdecode | rfl
    · exact hhex _ (HexText.isHex_of_decode hdecode)
    · exact fun hmem => absurd (AmlReal.Tron.WalletIdentity.base58Check_chars sha _ _ hmem) (by decide)

/-- A contract's own text is one of its spellings, as is any that is spelled at all. -/
theorem ContractSpelling.canonical {standard : Standard} {contract : Contract} {text : List Char}
    (h : ContractSpelling sha standard contract text) : ContractSpelling sha standard contract contract.text := by
  cases h with
  | number hdigits hlt =>
    have hown : ContractSpelling sha .trc10 (.number (Decimals.number (Nat.toDigits 10 (Decimals.number text))))
        (Nat.toDigits 10 (Decimals.number text)) := .number (digits_toDigits _) (by rwa [number_toDigits])
    rwa [number_toDigits] at hown
  | bytes hevm hlength hspells =>
    obtain ⟨cs, hdecode, _⟩ := hspells
    exact .bytes hevm hlength ⟨_, toLower_of_hexDigits (AmlReal.Tron.AddressForms.decode_lt_byte hdecode),
      Or.inr (Or.inl rfl)⟩
  | account hevm hne _ =>
    exact .account hevm hne (Or.inl (AmlReal.Tron.WalletIdentity.decode_contractForm _))

theorem contract_inj {standard : Standard} {a b : Contract} {text other : List Char}
    (ha : ContractSpelling sha standard a text) (hb : ContractSpelling sha standard b other)
    (h : a.text = b.text) : a = b := by
  cases ha with
  | number =>
    cases hb with
    | number => rw [toDigits_inj h]
    | bytes hevm => cases hevm
    | account _ hne => exact absurd rfl hne
  | bytes hevm _ hspells =>
    cases hb with
    | number => cases hevm
    | account hevm' => rw [hevm] at hevm'; cases hevm'
    | bytes _ _ hspells' =>
      obtain ⟨_, hdecode, _⟩ := hspells
      obtain ⟨_, hdecode', _⟩ := hspells'
      have htext := (List.cons.inj (List.cons.inj h).2).2
      have hbytes := toLower_of_hexDigits (AmlReal.Tron.AddressForms.decode_lt_byte hdecode)
      rw [htext, toLower_of_hexDigits (AmlReal.Tron.AddressForms.decode_lt_byte hdecode'),
        Option.some.injEq] at hbytes
      rw [hbytes]
  | account hevm hne =>
    cases hb with
    | number => exact absurd rfl hne
    | bytes hevm' => rw [hevm] at hevm'; cases hevm'
    | account => rw [AmlReal.Tron.WalletIdentity.contractForm_inj h]

end

theorem IdSpelling.canonical {standard : Standard} {tokenId : Option Nat} {suffix : List Char}
    (h : IdSpelling standard tokenId suffix) : IdSpelling standard tokenId (idText tokenId) := by
  cases h with
  | none => exact .none
  | @some text hnft hdigits hlt =>
    have hown := IdSpelling.some hnft (digits_toDigits (number text)) (by rwa [number_toDigits])
    rwa [number_toDigits] at hown

theorem idText_inj {a b : Option Nat} (h : idText a = idText b) : a = b := by
  cases a with
  | none =>
    cases b with
    | none => rfl
    | some m => cases h
  | some n =>
    cases b with
    | none => cases h
    | some m => rw [toDigits_inj (List.cons.inj h).2]

/-! ## Standards -/

theorem mem_standardNames {network : Network} (hnetwork : network ≠ .bitcoin) {name : List Char} :
    name ∈ standardNames network ↔ ∃ standard : Standard, standard.appliesTo network = true ∧
      standard.name = name := by
  constructor
  · intro h
    unfold standardNames at h
    split_ifs at h with hevm
    · rcases (by simpa only [List.mem_cons, List.not_mem_nil, or_false] using h) with rfl | rfl | rfl
      · exact ⟨.erc20, by simp [Standard.appliesTo, Standard.evm, hnetwork, hevm], rfl⟩
      · exact ⟨.erc721, by simp [Standard.appliesTo, Standard.evm, hnetwork, hevm], rfl⟩
      · exact ⟨.erc1155, by simp [Standard.appliesTo, Standard.evm, hnetwork, hevm], rfl⟩
    · rcases (by simpa only [List.mem_cons, List.not_mem_nil, or_false] using h) with rfl | rfl | rfl
      · exact ⟨.trc10, by simp [Standard.appliesTo, Standard.evm, hnetwork, hevm], rfl⟩
      · exact ⟨.trc20, by simp [Standard.appliesTo, Standard.evm, hnetwork, hevm], rfl⟩
      · exact ⟨.trc721, by simp [Standard.appliesTo, Standard.evm, hnetwork, hevm], rfl⟩
  · rintro ⟨standard, happlies, rfl⟩
    have hevm : standard.evm = network.evm := by
      have h := of_decide_eq_true happlies
      exact h.2
    unfold standardNames
    rw [← hevm]
    cases standard <;> decide

theorem name_inj {a b : Standard} (h : a.name = b.name) : a = b := by
  revert h
  cases a <;> cases b <;> decide

theorem name_colon (standard : Standard) : ':' ∉ standard.name := by cases standard <;> decide

theorem lower_name (standard : Standard) : standard.name.map Char.toLower = standard.name := by
  cases standard <;> decide

theorem mem_NFT (standard : Standard) : standard.name ∈ NFT ↔ standard.nft = true := by
  cases standard <;> decide

theorem toLower_colon {c : Char} (h : c.toLower = ':') : c = ':' := by
  by_contra hne
  unfold Char.toLower at h
  split at h
  · rename_i hupper
    have hle : c.val.toNat ≤ 'Z'.val.toNat := UInt32.le_iff_toNat_le.mp hupper.2
    have hge : 'A'.val.toNat ≤ c.val.toNat := UInt32.le_iff_toNat_le.mp hupper.1
    have hval := congrArg (fun x : Char => x.val.toNat) h
    simp at hval hle hge
    omega
  · exact hne h

theorem lower_colon {name : List Char} {standard : Standard} (h : name.map Char.toLower = standard.name) :
    ':' ∉ name := by
  intro hmem
  have hlower : ':' ∈ name.map Char.toLower := List.mem_map.mpr ⟨':', hmem, by decide⟩
  rw [h] at hlower
  exact name_colon standard hlower

/-! ## Parsing -/

theorem native_colon (network : Network) : ∃ symbol, nativeAsset network = "native".toList ++ ':' :: symbol ∧
    '/' ∉ nativeAsset network := by
  cases network
  · exact ⟨"TRX".toList, by decide, by decide⟩
  · exact ⟨"ETH".toList, by decide, by decide⟩
  · exact ⟨"BNB".toList, by decide, by decide⟩
  · exact ⟨"BTC".toList, by decide, by decide⟩

theorem symbol_colon (network : Network) : ':' ∉ ((nativeAsset network).drop 7).map Char.toLower := by
  cases network <;> decide

/-- A token is not spelled like the native asset. -/
theorem token_not_native {network : Network} {standard : Standard} {name rest : List Char}
    (hname : name.map Char.toLower = standard.name) :
    ¬ (eqIgnoreAsciiCase (name ++ ':' :: rest) (nativeAsset network) ∨
      eqIgnoreAsciiCase (name ++ ':' :: rest) ((nativeAsset network).drop 7)) := by
  have hlower : (name ++ ':' :: rest).map Char.toLower = standard.name ++ ':' :: rest.map Char.toLower := by
    rw [List.map_append, List.map_cons, hname]
    rfl
  rintro (h | h)
  · obtain ⟨symbol, hsymbol, _⟩ := native_colon network
    unfold eqIgnoreAsciiCase at h
    rw [hlower, hsymbol, List.map_append, List.map_cons] at h
    have hstandard := before_separator (name_colon standard) (by decide) h
    revert hstandard
    cases standard <;> decide
  · unfold eqIgnoreAsciiCase at h
    rw [hlower] at h
    exact symbol_colon network (h ▸ List.mem_append_right _ List.mem_cons_self)

theorem splitToken_form {text suffix : List Char} {standard : Standard} {tokenId : Option Nat}
    (htext : '/' ∉ text) (hid : IdSpelling standard tokenId suffix) :
    splitToken (text ++ suffix) = (text, suffix.tail?) ∧ (suffix = [] ∨ ∃ rest, suffix = '/' :: rest) := by
  cases hid with
  | none => exact ⟨by rw [List.append_nil, splitToken, splitOnce_none htext]; rfl, Or.inl rfl⟩
  | some => exact ⟨by rw [splitToken, splitOnce_append htext]; rfl, Or.inr ⟨_, rfl⟩⟩

section
variable (sha : Sha256)

theorem parseContract_ok {network : Network} {standard : Standard} (happlies : standard.appliesTo network = true)
    {text form : List Char} {token : Option (List Char)} :
    parseContract sha network standard.name text token = .ok form ↔ (standard = .trc10 → token = none) ∧
      ∃ contract, ContractSpelling sha standard contract text ∧ form = contract.text := by
  obtain ⟨_, hevm⟩ : network ≠ .bitcoin ∧ standard.evm = network.evm := of_decide_eq_true happlies
  cases hstandard : standard.evm with
  | true =>
    rw [parseContract_evm sha hstandard (hevm ▸ hstandard)]
    refine ⟨fun h => ⟨fun htrc => ?_, h⟩, And.right⟩
    rw [htrc] at hstandard
    cases hstandard
  | false => exact parseContract_tron sha hstandard (hevm ▸ hstandard)

/-- What follows the standard is read as a contract and a token id. -/
theorem parseToken_ok {network : Network} {standard : Standard} (happlies : standard.appliesTo network = true)
    {identity : List Char} {asset : AssetId} :
    (do
      let contract ← parseContract sha network standard.name (splitToken identity).1 (splitToken identity).2
      ensure (standard.name ∈ NFT ∨ (splitToken identity).2 = none) "fungible asset cannot carry a token id"
      let suffix ← parseSuffix (splitToken identity).2
      pure (⟨network, standard.name ++ ':' :: (contract ++ suffix),
        standard.name ∈ NFT ∧ (splitToken identity).2 = none⟩ : AssetId)) = .ok asset ↔
    ∃ contract tokenId text suffix, identity = text ++ suffix ∧ ContractSpelling sha standard contract text ∧
      IdSpelling standard tokenId suffix ∧ asset = (Asset.token standard contract tokenId).assetId network := by
  constructor
  · intro h
    obtain ⟨form, hcontract, h⟩ := bind_ok h
    obtain ⟨_, hnft, h⟩ := bind_ok h
    obtain ⟨suffix, hsuffix, h⟩ := bind_ok h
    obtain rfl := Except.ok.inj h
    obtain ⟨_, contract, hspelling, rfl⟩ := (parseContract_ok sha happlies).mp hcontract
    have hnft := ensure_ok hnft
    unfold splitToken at *
    cases hsplit : splitOnce '/' identity with
    | none =>
      rw [hsplit] at hspelling hsuffix
      obtain rfl := Except.ok.inj hsuffix
      refine ⟨contract, none, identity, [], (List.append_nil _).symm, hspelling, .none, ?_⟩
      simp [Asset.assetId, Asset.canonical, Asset.collection, idText, mem_NFT]
    | some parts =>
      obtain ⟨text, token⟩ := parts
      rw [hsplit] at hspelling hsuffix hnft
      obtain ⟨rfl, _⟩ := splitOnce_eq_some.mp hsplit
      obtain ⟨amount, hamount, rfl⟩ := map_ok hsuffix
      obtain ⟨hdigits, hlt, rfl⟩ := parse_ok.mp hamount
      have hstandard : standard.nft = true := (mem_NFT standard).mp (hnft.resolve_right (by simp))
      refine ⟨contract, _, text, '/' :: token, rfl, hspelling, .some hstandard hdigits hlt, ?_⟩
      simp [Asset.assetId, Asset.canonical, Asset.collection, idText]
  · rintro ⟨contract, tokenId, text, suffix, rfl, hspelling, hid, rfl⟩
    have hslash := contract_slash sha hspelling
    have hsplit := (splitToken_form hslash hid).1
    cases hid with
    | none =>
      have hcontract : parseContract sha network standard.name text none = .ok contract.text :=
        (parseContract_ok sha happlies).mpr ⟨fun _ => rfl, contract, hspelling, rfl⟩
      rw [hsplit]
      show (parseContract sha network standard.name text none >>= fun _ => _) = _
      rw [hcontract, ok_bind]
      show (ensure (standard.name ∈ NFT ∨ (none : Option (List Char)) = none) _ >>= fun _ => _) = _
      rw [ensure_eq (Or.inr rfl), ok_bind]
      show Except.ok _ = Except.ok _
      simp [Asset.assetId, Asset.canonical, Asset.collection, idText, mem_NFT]
    | @some token hnft hdigits hlt =>
      have htrc : standard = .trc10 → some token = none := by
        rintro rfl
        cases hnft
      have hcontract : parseContract sha network standard.name text (some token) = .ok contract.text :=
        (parseContract_ok sha happlies).mpr ⟨htrc, contract, hspelling, rfl⟩
      rw [hsplit]
      show (parseContract sha network standard.name text (some token) >>= fun _ => _) = _
      rw [hcontract, ok_bind, ensure_eq (Or.inl ((mem_NFT standard).mpr hnft)), ok_bind]
      show (((fun t => '/' :: t) <$> parse token) >>= fun _ => _) = _
      rw [parse_ok.mpr ⟨hdigits, hlt, rfl⟩]
      show Except.ok _ = Except.ok _
      simp [Asset.assetId, Asset.canonical, Asset.collection, idText]

/-- A local identity is accepted when it spells an asset. -/
theorem parseLocal_ok {network : Network} {value : List Char} {asset : AssetId} :
    parseLocal sha network value = .ok asset ↔
      ∃ a, LocalSpelling sha network a value ∧ asset = Asset.assetId network a := by
  unfold parseLocal
  dsimp only
  constructor
  · intro h
    split_ifs at h with hnative
    · exact ⟨.native, .native hnative, (Except.ok.inj h).symm⟩
    · obtain ⟨_, hbitcoin, hsplit⟩ := bind_ok h
      obtain ⟨⟨name, identity⟩, hparts, hstandard⟩ := bind_ok hsplit
      obtain ⟨_, hmem, hparsed⟩ := bind_ok hstandard
      obtain ⟨rfl, _⟩ := splitOnce_eq_some.mp (context_ok hparts)
      obtain ⟨standard, happlies, hname⟩ := (mem_standardNames (ensure_ok hbitcoin)).mp (ensure_ok hmem)
      rw [show (name, identity).1.map Char.toLower = standard.name from hname.symm] at hparsed
      obtain ⟨contract, tokenId, text, suffix, rfl, hspelling, hid, rfl⟩ :=
        (parseToken_ok sha happlies).mp hparsed
      exact ⟨_, .token happlies hname.symm hspelling hid, rfl⟩
  · rintro ⟨a, hspelling, rfl⟩
    cases hspelling with
    | native hnative => exact if_pos hnative
    | @token standard contract tokenId name text suffix happlies hname hcontract hid =>
      have hbitcoin : network ≠ .bitcoin := (of_decide_eq_true happlies : network ≠ .bitcoin ∧ _).1
      rw [if_neg (token_not_native hname), ensure_eq hbitcoin, ok_bind, splitOnce_append (lower_colon hname),
        context_some, ok_bind]
      show (ensure (name.map Char.toLower ∈ standardNames network) _ >>= fun _ => _) = _
      rw [ensure_eq ((mem_standardNames hbitcoin).mpr ⟨standard, happlies, hname.symm⟩), ok_bind]
      show (parseContract sha network (name.map Char.toLower) _ _ >>= fun _ => _) = _
      rw [hname]
      exact (parseToken_ok sha happlies).mpr ⟨contract, tokenId, text, suffix, rfl, hcontract, hid, rfl⟩

/-! ## Networks in front -/

theorem networkId_form (network : Network) : '/' ∉ networkId network ∧
    ∃ name ∈ NAMESPACES, (name ++ [':']).isPrefixOf (networkId network) = true := by
  cases network
  · exact ⟨by decide, "tron".toList, by decide, by decide⟩
  · exact ⟨by decide, "eip155".toList, by decide, by decide⟩
  · exact ⟨by decide, "eip155".toList, by decide, by decide⟩
  · exact ⟨by decide, "bip122".toList, by decide, by decide⟩

theorem networkId_inj {a b : Network} (h : networkId a = networkId b) : a = b := by
  revert h
  cases a <;> cases b <;> decide

theorem localPart_qualified (network other : Network) (value : List Char) :
    localPart network (networkId other ++ '/' :: value) =
      if other = network then .ok value else .error "asset belongs to another network" := by
  obtain ⟨hslash, name, hname, hfront⟩ := networkId_form other
  have hany : (NAMESPACES.any fun name => (name ++ [':']).isPrefixOf (networkId other)) = true :=
    List.any_eq_true.mpr ⟨name, hname, hfront⟩
  unfold localPart
  rw [splitOnce_append hslash]
  simp only [hany, if_true]
  unfold ensure
  by_cases h : other = network
  · rw [if_pos h, if_pos (congrArg networkId h)]
    rfl
  · rw [if_neg h, if_neg fun he => h (networkId_inj he)]
    rfl

/-- A spelled asset does not start like a network. -/
theorem localPart_plain {network : Network} {a : Asset} {value : List Char}
    (h : LocalSpelling sha network a value) : localPart network value = .ok value := by
  unfold localPart
  cases hsplit : splitOnce '/' value with
  | none => rfl
  | some parts =>
    obtain ⟨before, rest⟩ := parts
    obtain ⟨hvalue, _⟩ := splitOnce_eq_some.mp hsplit
    refine if_neg fun hany => ?_
    obtain ⟨namespaceName, hmem, hfront⟩ := List.any_eq_true.mp hany
    obtain ⟨tail, rfl⟩ := List.isPrefixOf_iff_prefix.mp hfront
    have hlower : '/' ∈ value.map Char.toLower := List.mem_map.mpr ⟨'/', by simp [hvalue], by decide⟩
    cases h with
    | native hnative =>
      obtain ⟨symbol, _, hslash⟩ := native_colon network
      have hnone : '/' ∉ (nativeAsset network).map Char.toLower := by cases network <;> decide
      rcases hnative with hnative | hnative
      · exact hnone (hnative ▸ hlower)
      · refine hnone ?_
        have hdrop : '/' ∈ ((nativeAsset network).drop 7).map Char.toLower := hnative ▸ hlower
        rw [List.map_drop] at hdrop
        exact List.mem_of_mem_drop hdrop
    | @token standard contract tokenId name text suffix happlies hname hcontract hid =>
      have hcolon : ∀ n ∈ NAMESPACES, ':' ∉ n := by decide
      have hsame : name = namespaceName := by
        refine before_separator (x := text ++ suffix) (y := tail ++ '/' :: rest) (lower_colon hname)
          (hcolon _ hmem) ?_
        rw [hvalue]
        simp
      have hnever : ∀ n ∈ NAMESPACES, ∀ standard : Standard, n.map Char.toLower ≠ standard.name := by
        intro n hn standard
        rcases (by simpa only [NAMESPACES, List.mem_cons, List.not_mem_nil, or_false] using hn) with rfl | rfl | rfl <;>
          cases standard <;> decide
      exact hnever _ hmem standard (hsame ▸ hname)

theorem parseLegacy_ok {network : Network} {raw : List Char} {asset : AssetId} :
    parseLegacy sha network raw = .ok asset ↔
      ∃ a, Spelling sha network a raw ∧ asset = Asset.assetId network a := by
  constructor
  · intro h
    obtain ⟨value, hlocal, h⟩ := bind_ok h
    obtain ⟨a, hspelling, rfl⟩ := (parseLocal_ok sha).mp h
    refine ⟨a, ?_, rfl⟩
    unfold localPart at hlocal
    cases hsplit : splitOnce '/' raw with
    | none =>
      rw [hsplit] at hlocal
      obtain rfl := Except.ok.inj hlocal
      exact .plain hspelling
    | some parts =>
      obtain ⟨before, rest⟩ := parts
      rw [hsplit] at hlocal
      obtain ⟨rfl, _⟩ := splitOnce_eq_some.mp hsplit
      simp only at hlocal
      split_ifs at hlocal with hany
      · obtain ⟨_, hbefore, hlocal⟩ := bind_ok hlocal
        obtain rfl := Except.ok.inj hlocal
        rw [ensure_ok hbefore]
        exact .qualified hspelling
      · obtain rfl := Except.ok.inj hlocal
        exact .plain hspelling
  · rintro ⟨a, hspelling, rfl⟩
    cases hspelling with
    | plain h =>
      rw [parseLegacy, localPart_plain sha h, ok_bind]
      exact (parseLocal_ok sha).mpr ⟨a, h, rfl⟩
    | qualified h =>
      rw [parseLegacy, localPart_qualified, if_pos rfl, ok_bind]
      exact (parseLocal_ok sha).mpr ⟨a, h, rfl⟩

/-! ## Canonical spellings -/

theorem Spelling.local {network : Network} {a : Asset} {raw : List Char} (h : Spelling sha network a raw) :
    ∃ value, LocalSpelling sha network a value := by
  cases h with
  | plain h => exact ⟨_, h⟩
  | qualified h => exact ⟨_, h⟩

/-- The spelling that parsing gives an asset spells it. -/
theorem LocalSpelling.canonical {network : Network} {a : Asset} {value : List Char}
    (h : LocalSpelling sha network a value) : LocalSpelling sha network a (a.canonical network) := by
  cases h with
  | native => exact .native (Or.inl rfl)
  | @token standard _ _ _ _ _ happlies _ hcontract hid =>
    exact .token happlies (lower_name standard) (hcontract.canonical sha) hid.canonical

/-- Two assets of a network that are spelled at all have two canonical spellings. -/
theorem canonical_inj {network : Network} {a b : Asset} {value other : List Char}
    (ha : LocalSpelling sha network a value) (hb : LocalSpelling sha network b other)
    (h : a.canonical network = b.canonical network) : a = b := by
  have hnative : ∀ {standard contract tokenId}, nativeAsset network ≠
      Asset.canonical network (.token standard contract tokenId) := by
    intro standard contract tokenId he
    have hnot : ¬ (eqIgnoreAsciiCase (standard.name ++ ':' :: (contract.text ++ idText tokenId)) (nativeAsset network) ∨ _) :=
      token_not_native (lower_name standard)
    exact hnot (Or.inl (congrArg _ he.symm))
  cases ha with
  | native =>
    cases hb with
    | native => rfl
    | token => exact absurd h hnative
  | @token standard contract tokenId _ _ _ _ _ hcontract =>
    cases hb with
    | native => exact absurd h.symm hnative
    | @token standard' contract' tokenId' _ _ _ _ _ hcontract' =>
      obtain ⟨hname, hrest⟩ := split_separator (name_colon standard) (name_colon standard') h
      obtain rfl := name_inj hname
      have hparts : contract.text = contract'.text ∧ idText tokenId = idText tokenId' := by
        have hslash := contract.slash_notMem
        have hslash' := contract'.slash_notMem
        cases tokenId with
        | none =>
          cases tokenId' with
          | none => exact ⟨by simpa [idText] using hrest, rfl⟩
          | some m =>
            rw [idText, idText, List.append_nil] at hrest
            exact absurd (hrest ▸ List.mem_append_right _ List.mem_cons_self) hslash
        | some n =>
          cases tokenId' with
          | none =>
            rw [idText, idText, List.append_nil] at hrest
            exact absurd (hrest ▸ List.mem_append_right _ List.mem_cons_self) hslash'
          | some m =>
            obtain ⟨htext, hid⟩ := split_separator hslash hslash' hrest
            exact ⟨htext, congrArg ('/' :: ·) hid⟩
      rw [contract_inj sha hcontract hcontract' hparts.1, idText_inj hparts.2]

end

/-- Asset identities, for every digest function and network: an accepted raw identity is parsed to a
value that is its own spelling and to a key that only its network reads, and as the same asset; and two of
them denote one asset exactly when their values are the same. -/
theorem canonical_identity (sha : Sha256) (network : Network) :
    (∀ raw asset, parseLegacy sha network raw = .ok asset →
      parseCanonical sha network asset.value = .ok asset ∧
      parseLegacy sha network asset.canonicalKey = .ok asset ∧
      ∀ other, other ≠ network →
        parseLegacy sha other asset.canonicalKey = .error "asset belongs to another network") ∧
    ∀ raw raw' asset asset', parseLegacy sha network raw = .ok asset →
      parseLegacy sha network raw' = .ok asset' →
      ((∃ a, Spelling sha network a raw ∧ Spelling sha network a raw') ↔ asset.value = asset'.value) := by
  refine ⟨fun raw asset h => ?_, fun raw raw' asset asset' h h' => ?_⟩
  · obtain ⟨a, hspelling, rfl⟩ := (parseLegacy_ok sha).mp h
    obtain ⟨_, hlocal⟩ := hspelling.local
    have hcanonical := hlocal.canonical
    have hvalue := (parseLegacy_ok sha).mpr ⟨a, .plain hcanonical, rfl⟩
    refine ⟨?_, (parseLegacy_ok sha).mpr ⟨a, .qualified hcanonical, rfl⟩, fun other hother => ?_⟩
    · show (parseLegacy sha network (a.canonical network) >>= fun _ => _) = _
      rw [hvalue, ok_bind]
      show (ensure (a.canonical network = a.canonical network) _ >>= fun _ => _) = _
      rw [ensure_eq rfl]
      rfl
    · show (localPart other (networkId network ++ '/' :: a.canonical network) >>= fun _ => _) = _
      rw [localPart_qualified, if_neg fun he => hother he.symm]
      rfl
  · obtain ⟨a, ha, rfl⟩ := (parseLegacy_ok sha).mp h
    obtain ⟨b, hb, rfl⟩ := (parseLegacy_ok sha).mp h'
    constructor
    · rintro ⟨c, hc, hc'⟩
      have hraw := (parseLegacy_ok sha).mpr ⟨c, hc, rfl⟩
      have hraw' := (parseLegacy_ok sha).mpr ⟨c, hc', rfl⟩
      rw [h, Except.ok.injEq] at hraw
      rw [h', Except.ok.injEq] at hraw'
      rw [hraw, hraw']
    · intro heq
      obtain ⟨_, hlocal⟩ := ha.local
      obtain ⟨_, hlocal'⟩ := hb.local
      obtain rfl := canonical_inj sha hlocal hlocal' heq
      exact ⟨a, ha, hb⟩

/-- An NFT of Ethereum. -/
def sampleAsset : AssetId :=
  ⟨.ethereum, "erc721:0x".toList ++ List.replicate 40 'a' ++ "/7".toList, false⟩

def sampleRaw : List Char := "ERC721:".toList ++ List.replicate 40 'A' ++ "/007".toList

theorem canonical_identity_sample :
    parseCanonical AmlReal.Tron.AddressForms.sampleSha .ethereum sampleAsset.value = .ok sampleAsset ∧
    parseLegacy AmlReal.Tron.AddressForms.sampleSha .bsc sampleAsset.canonicalKey =
      .error "asset belongs to another network" ∧
    ∃ a, Spelling AmlReal.Tron.AddressForms.sampleSha .ethereum a sampleRaw ∧
      Spelling AmlReal.Tron.AddressForms.sampleSha .ethereum a sampleAsset.canonicalKey := by
  have hraw : parseLegacy AmlReal.Tron.AddressForms.sampleSha .ethereum sampleRaw = .ok sampleAsset := by
    decide +kernel
  have hkey : parseLegacy AmlReal.Tron.AddressForms.sampleSha .ethereum sampleAsset.canonicalKey =
      .ok sampleAsset := by decide +kernel
  have hidentity := canonical_identity AmlReal.Tron.AddressForms.sampleSha .ethereum
  obtain ⟨hown, _, hother⟩ := hidentity.1 sampleRaw sampleAsset hraw
  exact ⟨hown, hother .bsc (by decide), (hidentity.2 _ _ _ _ hraw hkey).mpr rfl⟩

end AmlReal.Warehouse.Assets
