import AmlReal.Ethereum.Semantic

/-! # Logs as contracts encode them

The ABI encoding of the words and addresses of an event, and what the decoder
reads back from it. -/

namespace AmlReal.Ethereum.AbiLogs
open AmlReal.Foundations.FixedWidth AmlReal.Ethereum.Movements AmlReal.Ethereum.Semantic

/-! ## Words -/

def wordBytes (w : B256) : List Byte := (digits 256 32 w.toNat).map (BitVec.ofNat 8)

def abiWords (ws : List B256) : List Byte := ws.flatMap wordBytes

/-- An address in a word of its own. -/
def addressWord (address : Address) : B256 := address.setWidth 256

@[simp] theorem length_wordBytes (w : B256) : (wordBytes w).length = 32 := by
  simp [wordBytes]

theorem map_toNat_ofNat {ds : List Nat} (h : ∀ d ∈ ds, d < 256) :
    (ds.map (BitVec.ofNat 8)).map BitVec.toNat = ds := by
  rw [List.map_map]
  refine (List.map_congr_left fun d hd => ?_).trans (List.map_id ds)
  exact Nat.mod_eq_of_lt (h d hd)

theorem wordValue_wordBytes (w : B256) : wordValue (wordBytes w) = w := by
  have hdigits := digits_lt (b := 256) (by omega) 32 w.toNat
  have hlt : w.toNat < 256 ^ 32 := w.isLt
  rw [wordValue, wordBytes, map_toNat_ofNat hdigits, number_digits hlt, BitVec.ofNat_toNat,
    BitVec.setWidth_eq]

theorem toNat_addressWord (address : Address) : (addressWord address).toNat = address.toNat := by
  have hlt := address.isLt
  rw [addressWord, BitVec.toNat_setWidth]
  exact Nat.mod_eq_of_lt (by omega)

@[simp] theorem topicAddress_addressWord (address : Address) :
    topicAddress (addressWord address) = some address := by
  have hlt := address.isLt
  unfold topicAddress
  rw [toNat_addressWord, if_pos hlt, BitVec.ofNat_toNat, BitVec.setWidth_eq]

theorem addressWord_inj {a b : Address} (h : addressWord a = addressWord b) : a = b := by
  have hsome := congrArg topicAddress h
  rw [topicAddress_addressWord, topicAddress_addressWord] at hsome
  exact Option.some.inj hsome

@[simp] theorem wordAddress_addressWord (address : Address) :
    wordAddress (wordBytes (addressWord address)) = some address := by
  have hlt : address.toNat < 256 ^ 20 := address.isLt
  have hsplit : wordBytes (addressWord address) =
      List.replicate 12 0 ++ (digits 256 20 address.toNat).map (BitVec.ofNat 8) := by
    rw [wordBytes, toNat_addressWord, show 32 = 12 + 20 by rfl, digits_add,
      Nat.div_eq_of_lt hlt, digits_zero, List.map_append, List.map_replicate]
    rfl
  have hlength : (wordBytes (addressWord address)).length = 32 := length_wordBytes _
  have htake : (wordBytes (addressWord address)).take 12 = List.replicate 12 0 := by
    rw [hsplit, List.take_left' (by simp)]
  have hdrop : (wordBytes (addressWord address)).drop 12 =
      (digits 256 20 address.toNat).map (BitVec.ofNat 8) := by
    rw [hsplit, List.drop_left' (by simp)]
  have hdigits := digits_lt (b := 256) (by omega) 20 address.toNat
  unfold wordAddress
  rw [if_pos ⟨hlength, by rw [htake]; decide⟩, hdrop, map_toNat_ofNat hdigits, number_digits hlt,
    BitVec.ofNat_toNat, BitVec.setWidth_eq]

/-- The words of the data, whatever follows them. -/
theorem word_abiWords (ws : List B256) (tail : List Byte) (i : Nat) {w : B256}
    (h : ws[i]? = some w) : word (abiWords ws ++ tail) i = some (wordBytes w) := by
  unfold word wordAt
  induction ws generalizing i with
  | nil => cases h
  | cons first rest ih =>
    have happend : abiWords (first :: rest) ++ tail =
        wordBytes first ++ (abiWords rest ++ tail) := by
      rw [abiWords, List.flatMap_cons, List.append_assoc]
      rfl
    rw [happend]
    cases i with
    | zero =>
      obtain rfl := Option.some.inj h
      have hlength : 32 * 0 + 32 ≤ (wordBytes first ++ (abiWords rest ++ tail)).length := by
        rw [List.length_append, length_wordBytes]
        omega
      rw [if_pos hlength, Nat.mul_zero, List.drop_zero, List.take_left' (length_wordBytes first)]
    | succ i =>
      have hrest := ih i h
      have hdrop : (wordBytes first ++ (abiWords rest ++ tail)).drop (32 * (i + 1)) =
          (abiWords rest ++ tail).drop (32 * i) := by
        rw [show 32 * (i + 1) = (wordBytes first).length + 32 * i by
          rw [length_wordBytes]; omega, ← List.drop_drop, List.drop_left]
      have hlength : 32 * (i + 1) + 32 ≤ (wordBytes first ++ (abiWords rest ++ tail)).length ↔
          32 * i + 32 ≤ (abiWords rest ++ tail).length := by
        rw [List.length_append, length_wordBytes]
        omega
      rw [hdrop, if_congr hlength rfl rfl]
      exact hrest

/-! ## The published digests -/

def publishedDigest : EventSignature → B256
  | .swapV2 => 0xd78ad95fa46c994b6551d0da85fc275fe613ce37657fb8d5e3d130840159d822
  | .swapV3 => 0xc42079f94a6350d7e6235f29174924f928cc2ac818eb64fed8004e115fbcca67
  | .curveSwap => 0x8b3e96f2b889fa771c53c981b40daf005f63f637f1869f707052d15a3dd97140
  | .curveUnderlyingSwap => 0xd013ca23e77a65003c2c659c5442c00c805371b7fc1ebd4c206c41d1536bd90b
  | .balancerSwap => 0x2170c741c41531aec20e7c107c24eecfdd15e69c9bb0a8dd37b1840b9e0b207b
  | .uniswapV2Mint => 0x4c209b5fc8ad50758f13e2e1088ba56a560dff690a1c6fef26394f4c03821c4f
  | .uniswapV2Burn => 0xdccd412f0b1252819cb1fd330b93224ca42612892bb3f4f789976e6d81936496
  | .uniswapV3Mint => 0x7a53080ba414158be7ec69b987b5fb7d07dee101fe85488f0853ae16239d0bde
  | .uniswapV3Burn => 0x0c396cd989a39f4459b5fa1aed6a9a8dcdbc45908acfd67e028cd568da98982c
  | .tornadoDeposit => 0xa945e51eec50ab98c161376f0db4cf2aeba3ec92755fe2fcd388bdbbb80ff196
  | .tornadoWithdrawal => 0xe9e508bad6d4c3227e881ca19068f099da81b5164dd6d62b2eaf1e8bc6c34931
  | .opErc20BridgeInitiated => 0x7ff126db8024424bbfd9826e8ab82ff59136289ea440b04b39a0df1b03b9cabf
  | .opErc20BridgeFinalized => 0xd59c65b35445225835c83f50b6ede06a7be047d22e357073e250d9af537518cd
  | .opEthBridgeInitiated => 0x2849b43074093a05396b6f2a937dee8565b15a48a7b3d4bffb732a5017380af5
  | .opEthBridgeFinalized => 0x31b2166ff604fc5672ea5df08a78081d2bc6d746cadce880747f3643d819e83d
  | .opErc20DepositInitiated => 0x718594027abd4eaed59f95162563e0cc6d0e8d5b86b1c7be8b1b0ac3343d0396
  | .opEthDepositInitiated => 0x35d79ab81f2b2017e19afb5c5571778877782d7a8786f5907f93b0f4702f4f23
  | .opErc20WithdrawalFinalized => 0x3ceee06c1e37648fcbb6ed52e17b3e1f275a1f8c7b22a84b2b84732431e046b3
  | .opEthWithdrawalFinalized => 0x2ac69ee804d9a7a0984249f508dfab7cb2534b465b6ce1580f99a38ba9c5e631

def eventSignatures : List EventSignature :=
  [.swapV2, .swapV3, .curveSwap, .curveUnderlyingSwap, .balancerSwap, .uniswapV2Mint,
    .uniswapV2Burn, .uniswapV3Mint, .uniswapV3Burn, .tornadoDeposit, .tornadoWithdrawal,
    .opErc20BridgeInitiated, .opErc20BridgeFinalized, .opEthBridgeInitiated,
    .opEthBridgeFinalized, .opErc20DepositInitiated, .opEthDepositInitiated,
    .opErc20WithdrawalFinalized, .opEthWithdrawalFinalized]

/-- Keccak-256 on the texts of the signatures. -/
def publishedKeccak (text : String) : B256 :=
  (eventSignatures.find? fun e => e.text = text).elim 0 publishedDigest

theorem publishedKeccak_text : ∀ e ∈ eventSignatures,
    publishedKeccak e.text = publishedDigest e := by decide +kernel

theorem mem_eventSignatures (e : EventSignature) : e ∈ eventSignatures := by
  cases e <;> decide

theorem publishedDigest_inj : ∀ e ∈ eventSignatures, ∀ f ∈ eventSignatures,
    publishedDigest e = publishedDigest f → e = f := by decide +kernel

theorem marked_ne (text : String) : "#" ++ text ≠ "" := by
  intro h
  have hlist := congrArg String.toList h
  rw [String.toList_append] at hlist
  exact absurd (List.append_eq_nil_iff.mp hlist).1 (by decide)

theorem marked_injective : Function.Injective fun text => "#" ++ text := by
  intro a b h
  exact (String.append_right_inj _).mp h

def publishedDigests : Digests where
  keccak256 := publishedKeccak
  stableHash text := "#" ++ text
  nonempty := marked_ne
  distinct e f h := by
    have he := mem_eventSignatures e
    have hf := mem_eventSignatures f
    rw [publishedKeccak_text e he, publishedKeccak_text f hf] at h
    exact publishedDigest_inj e he f hf h

end AmlReal.Ethereum.AbiLogs
