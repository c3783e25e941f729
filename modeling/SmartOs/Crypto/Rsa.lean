/-
# RSA signatures

`rsa2048_verify_pkcs1v15_sha256` of `crypto/p256.rs`. The hash function is a parameter. The
function accepts every block that starts with padding of some length, the `DigestInfo` and the
hash. It does not look at the bytes after the hash, nor at the size of the signature, so it
accepts more than the one encoding of the hash.
-/

import Mathlib.Data.List.TakeWhile
import SmartOs.Crypto.BigInt

namespace SmartOs.Crypto

open Math List Nat BigInt

variable {trailing : List UInt8}

namespace Rsa

def sha256DerPrefix : List UInt8 :=
  [0x30, 0x31, 0x30, 0x0D, 0x06, 0x09, 0x60, 0x86, 0x48, 0x01, 0x65, 0x03, 0x04,
    0x02, 0x01, 0x05, 0x00, 0x04, 0x20]

/-- The checks on the block `em`. -/
def checkEncoding (hash : List UInt8) : (em : List UInt8) → Bool
  | first :: second :: padded =>
    if first ≠ 0x00 ∨ second ≠ 0x01 then false
    else match padded.dropWhile (· == 0xFF) with
      | [] => false
      | separator :: rem =>
        if separator ≠ 0x00 then false
        else if rem.length < sha256DerPrefix.length + 32 then false
        else if rem.take sha256DerPrefix.length ≠ sha256DerPrefix then false
        else (rem.drop sha256DerPrefix.length).take 32 == hash
  -- a block has 256 bytes
  | _ => false

variable (sha256 : List UInt8 → Bytes 32)

def rsa2048VerifyPkcs1v15Sha256 (nBytes : Bytes 256) (eBytes : List UInt8) (sigBytes : Bytes 256)
    (msg : List UInt8) : Bool :=
  let n := fromBeBytes nBytes.val
  let e := fromBeBytes eBytes
  let sig := fromBeBytes sigBytes.val
  let m := sig.modExp e n
  checkEncoding (sha256 msg).val (m.toBeBytes 256)

/-! ## What is accepted -/

/-- A block with `k` bytes of padding, and with bytes after the hash. -/
def encoding (k : ℕ) (hash trailing : List UInt8) : List UInt8 :=
  0x00 :: 0x01 :: (replicate k 0xFF ++ 0x00 :: (sha256DerPrefix ++ (hash ++ trailing)))

theorem length_encoding (k : ℕ) (hash trailing : List UInt8) :
    (encoding k hash trailing).length = k + hash.length + trailing.length + 22 := by
  simp [encoding, sha256DerPrefix]
  omega

variable {hash : List UInt8}

theorem checkEncoding_encoding (k : ℕ) (size : hash.length = 32) (trailing : List UInt8) :
    checkEncoding hash (encoding k hash trailing) := by
  have padding : (replicate k (0xFF : UInt8) ++
      0x00 :: (sha256DerPrefix ++ (hash ++ trailing))).dropWhile (· == 0xFF) =
        0x00 :: (sha256DerPrefix ++ (hash ++ trailing)) := by
    rw [dropWhile_append_of_pos (by simp)]
    rfl
  have room : ¬(sha256DerPrefix ++ (hash ++ trailing)).length < sha256DerPrefix.length + 32 := by
    simp only [length_append]
    omega
  rw [encoding, checkEncoding, padding]
  simp only [drop_left, room]
  rw [take_left' size]
  exact beq_self_eq_true hash

/-- The padding may have any length, and anything may follow the hash. -/
theorem checkEncoding_iff (size : hash.length = 32) (em : List UInt8) :
    checkEncoding hash em ↔ ∃ k trailing, em = encoding k hash trailing := by
  constructor
  · intro ok
    match em, ok with
    | first :: second :: padded, ok =>
      rw [checkEncoding] at ok
      split at ok
      · exact absurd ok Bool.false_ne_true
      rename_i start
      rw [not_or, not_not, not_not] at start
      split at ok
      · exact absurd ok Bool.false_ne_true
      rename_i separator rem after
      split_ifs at ok with separated room digestInfo
      rw [not_not] at separated digestInfo
      -- the bytes before the separator are the padding
      have ones : padded.takeWhile (· == 0xFF) =
          replicate (padded.takeWhile (· == 0xFF)).length 0xFF := by
        refine eq_replicate_of_mem fun byte mem => ?_
        exact eq_of_beq (mem_takeWhile_imp (p := (· == (0xFF : UInt8))) mem)
      have split : rem = sha256DerPrefix ++
          (hash ++ (rem.drop sha256DerPrefix.length).drop 32) := by
        rw [← eq_of_beq ok, take_append_drop]
        nth_rewrite 1 [← take_append_drop sha256DerPrefix.length rem]
        rw [digestInfo]
      refine ⟨(padded.takeWhile (· == 0xFF)).length, (rem.drop sha256DerPrefix.length).drop 32, ?_⟩
      rw [separated] at after
      rw [encoding, ← ones, ← split, ← after, takeWhile_append_dropWhile, start.1, start.2]
  · rintro ⟨k, trailing, rfl⟩
    exact checkEncoding_encoding k size trailing

/-- A block starts with `00 01`, so its number is not small. -/
theorem le_of_eq_encoding {v k : ℕ} (fits : v < 256 ^ 256)
    (block : beBytesOn 256 v = encoding k hash trailing) : 256 ^ 254 ≤ v := by
  obtain ⟨length, value⟩ := (eq_beBytesOn_iff fits).mp block.symm
  rw [encoding] at length value
  rw [← value, ofBeBytes_cons, ofBeBytes_cons]
  rw [show _ = 254 from succ.inj (succ.inj length)]
  simp

/-- The block that a signature stands for, on the length of the modulus. -/
def messageBlock (n e s : ℕ) : List UInt8 := beBytesOn 256 (s ^ e % n)

variable (n : Bytes 256) (e : List UInt8) (sig : Bytes 256) (msg : List UInt8)

theorem value_modulus : (fromBeBytes n.val).value = ofBeBytes n.val ∧
    ofBeBytes n.val < 2 ^ (64 * 32) := by
  have small : ofBeBytes n.val < 2 ^ (64 * 32) := by
    have bound := ofBeBytes_lt n.val
    have bits : 256 ^ 256 = 2 ^ (64 * 32) := by
      rw [pow_mul]
      rfl
    rwa [n.property, bits] at bound
  refine ⟨?_, small⟩
  rw [value_fromBeBytes, mod_eq_of_lt]
  exact lt_trans small (pow_lt_pow_right₀ (by decide) (by decide))

/-- The number whose bytes are checked. -/
theorem toBeBytes_modExp : ((fromBeBytes sig.val).modExp (fromBeBytes e)
    (fromBeBytes n.val)).toBeBytes 256 = beBytesOn 256 (if ofBeBytes n.val = 0 then 0 else
        power (ofBeBytes sig.val) (ofBeBytes e % 2 ^ (64 * maxLimbs)) (ofBeBytes n.val)) := by
  obtain ⟨modulus, bound⟩ := value_modulus n
  obtain ⟨signature, -⟩ := value_modulus sig
  have value : ((fromBeBytes sig.val).modExp (fromBeBytes e)
      (fromBeBytes n.val)).value = if ofBeBytes n.val = 0 then 0 else
        power (ofBeBytes sig.val) (ofBeBytes e % 2 ^ (64 * maxLimbs)) (ofBeBytes n.val) := by
    split
    · rename_i zero
      exact value_modExp_zero (modulus.trans zero)
    · rename_i ne
      rw [value_modExp (by rw [modulus]; exact pos_of_ne_zero ne)
        (by rw [modulus]; exact le_of_lt bound), signature, modulus, value_fromBeBytes]
  have small : ((fromBeBytes sig.val).modExp (fromBeBytes e)
      (fromBeBytes n.val)).value < 2 ^ (64 * 32) := by
    rw [value]
    split
    · exact pow_pos (by decide) _
    · rename_i ne
      exact power_lt (pos_of_ne_zero ne) (le_of_lt bound)
  have limbs := n_le (by decide) small
  rw [toBeBytes_eq (by omega), value]

/-- The exponent is taken modulo `2 ^ 4096`. -/
theorem verify_iff : rsa2048VerifyPkcs1v15Sha256 sha256 n e sig msg ↔
    0 < ofBeBytes n.val ∧ ∃ k trailing,
      messageBlock (ofBeBytes n.val) (ofBeBytes e % 2 ^ (64 * maxLimbs)) (ofBeBytes sig.val) =
        encoding k (sha256 msg).val trailing := by
  rw [rsa2048VerifyPkcs1v15Sha256]
  simp only [toBeBytes_modExp]
  rw [checkEncoding_iff (sha256 msg).property]
  -- zero and one, where the exponentiation does not reduce, are no blocks
  have notSmall {v k : ℕ} {trailing : List UInt8} (small : v ≤ 1) :
      beBytesOn 256 v ≠ encoding k (sha256 msg).val trailing := by
    intro block
    have large := le_of_eq_encoding (lt_of_le_of_lt small (one_lt_pow (by decide)
      (by decide))) block
    omega
  split
  · rename_i zero
    constructor
    · rintro ⟨k, trailing, block⟩
      exact absurd block (notSmall (by decide))
    · rintro ⟨pos, -⟩
      omega
  · rename_i ne
    rw [power]
    split
    · rename_i none
      rw [none]
      constructor
      · rintro ⟨k, trailing, block⟩
        exact absurd block (notSmall (by decide))
      · rintro ⟨-, k, trailing, block⟩
        exact absurd block (notSmall (mod_le _ _))
    · exact ⟨fun ok => ⟨pos_of_ne_zero ne, ok⟩, fun ok => ok.2⟩

/-! ## Forgeries -/

/-- The only encoding of a hash on 256 bytes, for a signature below the modulus. -/
def Genuine (n e s : ℕ) (hash : List UInt8) : Prop :=
  s < n ∧ messageBlock n e s = encoding 202 hash []

/-- The padding is the longest run of `FF`. -/
theorem padding_of_encoding_eq {k l : ℕ} {xs ys : List UInt8}
    (same : encoding k hash xs = encoding l hash ys) : k = l := by
  have padded := (cons.inj (cons.inj same).2).2
  have runs := congrArg (fun block => (block.takeWhile (· == (0xFF : UInt8))).length) padded
  simpa using runs

/-- A block is the encoding of the hash exactly if its padding fills it. -/
theorem eq_full_encoding_iff {k v : ℕ} (size : hash.length = 32)
    (block : beBytesOn 256 v = encoding k hash trailing) :
    beBytesOn 256 v = encoding 202 hash [] ↔ k = 202 := by
  have length := congrArg length block
  rw [length_beBytesOn, length_encoding] at length
  constructor
  · intro full
    exact padding_of_encoding_eq (block.symm.trans full)
  · rintro rfl
    have none : trailing = [] := length_eq_zero_iff.mp (by omega)
    rw [block, none]

/-- The function accepts exactly the genuine signatures if and only if the block of the
signature, should it be padding, `DigestInfo` and hash with anything behind, has its full padding
and the signature is below the modulus. Exponents of more than 4096 bits are cut off, and then
it depends on the blocks for the two exponents. -/
theorem verify_iff_genuine_iff : (rsa2048VerifyPkcs1v15Sha256 sha256 n e sig msg ↔
        Genuine (ofBeBytes n.val) (ofBeBytes e) (ofBeBytes sig.val) (sha256 msg).val) ↔
      if ofBeBytes e < 2 ^ (64 * maxLimbs) then
        0 < ofBeBytes n.val → ∀ k trailing,
          messageBlock (ofBeBytes n.val) (ofBeBytes e) (ofBeBytes sig.val) =
              encoding k (sha256 msg).val trailing → k = 202 ∧ ofBeBytes sig.val < ofBeBytes n.val
      else
        ((0 < ofBeBytes n.val ∧ ∃ k trailing, messageBlock (ofBeBytes n.val)
            (ofBeBytes e % 2 ^ (64 * maxLimbs)) (ofBeBytes sig.val) =
              encoding k (sha256 msg).val trailing) ↔
          Genuine (ofBeBytes n.val) (ofBeBytes e) (ofBeBytes sig.val) (sha256 msg).val) := by
  rw [verify_iff]
  split
  · rename_i fits
    rw [mod_eq_of_lt fits]
    constructor
    · intro claimed pos k trailing block
      obtain ⟨below, full⟩ := claimed.mp ⟨pos, k, trailing, block⟩
      exact ⟨(eq_full_encoding_iff (sha256 msg).property block).mp full, below⟩
    intro padded
    constructor
    · rintro ⟨pos, k, trailing, block⟩
      obtain ⟨full, below⟩ := padded pos k trailing block
      exact ⟨below, (eq_full_encoding_iff (sha256 msg).property block).mpr full⟩
    · rintro ⟨below, block⟩
      exact ⟨zero_lt_of_lt below, 202, [], block⟩
  · exact Iff.rfl

theorem messageBlock_one {n : ℕ} {block : List UInt8} (length : block.length = 256)
    (below : ofBeBytes block < n) : messageBlock n 1 (ofBeBytes block) = block := by
  have fits : ofBeBytes block < 256 ^ 256 := length ▸ ofBeBytes_lt block
  rw [messageBlock, pow_one, mod_eq_of_lt below]
  exact ((eq_beBytesOn_iff fits).mpr ⟨length, rfl⟩).symm

/-- With exponent one, and a block without padding as the signature, a message is signed. -/
theorem unpadded_accepted : ∃ (sha256 : List UInt8 → Bytes 32) (msg : List UInt8), ∃ n sig,
    rsa2048VerifyPkcs1v15Sha256 sha256 n [1] sig msg ∧
      ¬Genuine (ofBeBytes n.val) (ofBeBytes [1]) (ofBeBytes sig.val) (sha256 msg).val := by
  let sha256 : List UInt8 → Bytes 32 := fun _ => ⟨replicate 32 0, length_replicate⟩
  let msg : List UInt8 := []
  refine ⟨sha256, msg, ?_⟩
  have size := (sha256 msg).property
  let modulus : List UInt8 := 0xFF :: replicate 255 0xFF
  let signature := encoding 0 (sha256 msg).val (replicate 202 0)
  have length : signature.length = 256 := by
    rw [length_encoding, size, length_replicate]
  -- the first byte of the signature is zero and that of the modulus is not
  have below : ofBeBytes signature < ofBeBytes modulus := by
    have tail : signature.tail.length = 255 := by rw [length_tail, length]
    have small : ofBeBytes signature = ofBeBytes signature.tail := by
      change ofBeBytes (0x00 :: signature.tail) = _
      rw [ofBeBytes_cons, UInt8.toNat_zero, zero_mul, zero_add]
    have bound := ofBeBytes_lt signature.tail
    have large : 256 ^ 255 ≤ ofBeBytes modulus := by
      rw [ofBeBytes_cons, length_replicate]
      exact le_add_right_of_le (Nat.le_mul_of_pos_left _ (by decide))
    rw [small]
    exact lt_of_lt_of_le (tail ▸ bound) large
  have block : messageBlock (ofBeBytes modulus) (ofBeBytes [1]) (ofBeBytes signature) = signature :=
    messageBlock_one length below
  refine ⟨⟨modulus, by rw [length_cons, length_replicate]⟩, ⟨signature, length⟩, ?_, ?_⟩
  · rw [verify_iff]
    refine ⟨zero_lt_of_lt below, 0, replicate 202 0, ?_⟩
    have fits : ofBeBytes [1] < 2 ^ (64 * maxLimbs) := Nat.one_lt_two_pow (by decide)
    rw [mod_eq_of_lt fits]
    exact block
  · rintro ⟨-, full⟩
    have padding := (eq_full_encoding_iff size block).mp full
    omega

/-! ## Genuine signatures -/

/-- What the holder of the private exponent computes is accepted, and it is the only genuine
signature of the message. -/
theorem verify_signed {n sig : Bytes 256} {e msg : List UInt8} {d : ℕ}
    (short : ofBeBytes e < 2 ^ (64 * maxLimbs))
    (key : ∀ m, m ^ (ofBeBytes e * d) % ofBeBytes n.val = m % ofBeBytes n.val)
    (large : ofBeBytes (encoding 202 (sha256 msg).val []) < ofBeBytes n.val)
    (signed : ofBeBytes sig.val =
      ofBeBytes (encoding 202 (sha256 msg).val []) ^ d % ofBeBytes n.val) :
    rsa2048VerifyPkcs1v15Sha256 sha256 n e sig msg ∧
      ∀ s, Genuine (ofBeBytes n.val) (ofBeBytes e) s (sha256 msg).val ↔ s = ofBeBytes sig.val := by
  have bound := ofBeBytes_lt n.val
  rw [n.property] at bound
  have pos := zero_lt_of_lt large
  have length : (encoding 202 (sha256 msg).val []).length = 256 := by
    rw [length_encoding, (sha256 msg).property]
    rfl
  have genuine (s : ℕ) : Genuine (ofBeBytes n.val) (ofBeBytes e) s (sha256 msg).val ↔
      s = ofBeBytes sig.val := by
    rw [Genuine, messageBlock, eq_comm (b := encoding ..),
      eq_beBytesOn_iff ((mod_lt _ pos).trans bound), and_iff_right length, signed]
    constructor
    · rintro ⟨below, power⟩
      rw [power, ← pow_mod, ← pow_mul, key, mod_eq_of_lt below]
    · rintro rfl
      rw [← pow_mod, ← pow_mul, Nat.mul_comm, key, mod_eq_of_lt large]
      exact ⟨mod_lt _ pos, rfl⟩
  refine ⟨(verify_iff ..).mpr ⟨pos, 202, [], ?_⟩, genuine⟩
  rw [mod_eq_of_lt short]
  exact ((genuine _).mpr rfl).2

/-- With the exponents one, the signature is the block itself. -/
theorem verify_signed_one : ∃ (sha256 : List UInt8 → Bytes 32) (n sig : Bytes 256),
    rsa2048VerifyPkcs1v15Sha256 sha256 n [1] sig [] := by
  obtain ⟨hash, zero⟩ : ∃ hash : Bytes 32, hash.val = replicate 32 0 := ⟨⟨_, length_replicate⟩, rfl⟩
  obtain ⟨n, ones⟩ : ∃ n : Bytes 256, n.val = replicate 256 0xFF := ⟨⟨_, length_replicate⟩, rfl⟩
  have large : ofBeBytes (encoding 202 hash.val []) < ofBeBytes n.val := by
    rw [zero, ones]
    decide +kernel
  have length : (encoding 202 hash.val []).length = 256 := by
    rw [length_encoding, hash.property]
    rfl
  have signed := @verify_signed (fun _ => hash) n ⟨_, length⟩ [1] [] 1
    (Nat.one_lt_two_pow (by decide)) (fun m => congrArg (· % _) (pow_one m)) large
    (by rw [pow_one, mod_eq_of_lt large])
  exact ⟨_, _, _, signed.1⟩

end Rsa

end SmartOs.Crypto
