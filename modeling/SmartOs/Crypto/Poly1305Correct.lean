/-
# Where the authenticators are right

Both implementations of Poly1305 are wrong. The one of `net/tls.rs` keeps its limbs equal to the
polynomial modulo the prime over any message, but picks the bits of its result with a mask meant
for a top limb of two bits: between the residue and the residue plus five. The one of
`crypto/chacha20.rs` computes modulo `2 ^ 128`, and with limbs that run into each other.

For a key and a message the conditions are exact. They speak of the numbers that the two
implementations come to, which are given by recurrences over the blocks: `macNumber`, with limbs
that are natural numbers, and `tagNumber`, with the sum that ORs carries. For one key both are
right on all messages only if the point `r` is zero.
-/

import SmartOs.CS.WordLimbs
import SmartOs.Crypto.Poly1305

namespace SmartOs.Crypto

open CS Math List Nat Tls ChaCha20 Rfc8439

/-! ## The polynomial -/

variable {key : Bytes 32}

namespace Rfc8439

/-- Horner's rule. -/
theorem foldl_horner (r a : ℕ) (cs : List ℕ) :
    cs.foldl (fun a c => (a + c) * r) a = a * r ^ cs.length + polynomial r cs := by
  induction cs generalizing a with
  | nil => simp [polynomial]
  | cons c cs ih =>
    rw [foldl_cons, ih, polynomial, length_cons]
    ring

theorem polynomial_zero (cs : List ℕ) : polynomial 0 cs = 0 := by
  induction cs with
  | nil => rfl
  | cons c cs ih => rw [polynomial, ih, Nat.zero_pow (succ_pos _), mul_zero]

theorem residue_of_r_eq_zero (zero : r key = 0) (message : List UInt8) :
    residue key message = 0 := by
  rw [residue, zero, polynomial_zero, zero_mod]

theorem blockValue_lt {chunk : List UInt8} (short : chunk.length ≤ 16) :
    blockValue chunk < 2 ^ 129 := by
  have low := ofLeBytes_lt chunk
  have bound : 256 ^ chunk.length ≤ 2 ^ 128 := Nat.pow_le_pow_right (n := 256) (by decide) short
  rw [blockValue, ofLeBytes_append, show ofLeBytes [1] = 1 from rfl]
  omega

theorem r_lt : r key < 2 ^ 128 :=
  and_le_right.trans_lt (by decide)

theorem s_lt (key : Bytes 32) : s key < 2 ^ 128 := by
  have := ofLeBytes_lt (field 16 16 key.val)
  rwa [length_field (by rw [key.property])] at this

end Rfc8439

open Rfc8439

/-! ## Limbs -/

variable {message : List UInt8} {x : Word 64}

namespace Tls

def base : ℕ := 2 ^ 26

theorem digits_base (n : ℕ) : Five.digits base n = ⟨n / 2 ^ 0 % 2 ^ 26, n / 2 ^ 26 % 2 ^ 26,
    n / 2 ^ 52 % 2 ^ 26, n / 2 ^ 78 % 2 ^ 26, n / 2 ^ 104 % 2 ^ 26⟩ := by
  rw [pow_zero, Nat.div_one]
  rfl

variable (bytes : List UInt8)

theorem load_upto (i : ℕ) :
    (load bytes i).Upto (ofLeBytes bytes / 2 ^ (8 * i) % 2 ^ 32) (2 ^ 32 - 1) := by
  have equal : ofLeBytes (field i 4 bytes) = ofLeBytes bytes / 2 ^ (8 * i) % 2 ^ 32 := by
    rw [ofLeBytes_field, pow_mul]
    rfl
  have small : ofLeBytes (field i 4 bytes) < 2 ^ 32 := equal ▸ mod_lt _ (by decide)
  refine ((Word.Upto.ofNat (small.trans (by decide))).congr equal).tighten ?_
  exact le_sub_one_of_lt (mod_lt _ (by decide))

theorem mask26_upto : mask26.Upto (2 ^ 26 - 1) (2 ^ 26 - 1) := .ofNat (by decide)

variable {k j b a : ℕ} {chunk : List UInt8} {h : Limbs} {n : Five ℕ}

theorem join_words (n : ℕ) (inside : k ≤ 32) :
    n % 2 ^ 32 / 2 ^ k + n / 2 ^ 32 % 2 ^ 32 * 2 ^ (32 - k) = n / 2 ^ k % 2 ^ (64 - k) := by
  have low : 2 ^ 32 = 2 ^ k * 2 ^ (32 - k) := by rw [← pow_add, add_sub_of_le inside]
  have both : 2 ^ 32 * 2 ^ 32 = 2 ^ k * 2 ^ (64 - k) := by
    rw [← pow_add, ← pow_add]
    congr 1
    omega
  have pair : n / 2 ^ k % 2 ^ (64 - k) = (n % 2 ^ 32 + 2 ^ 32 * (n / 2 ^ 32 % 2 ^ 32)) / 2 ^ k := by
    rw [← mod_mul, both, mod_mul_right_div_self]
  have shifted : 2 ^ 32 * (n / 2 ^ 32 % 2 ^ 32) =
      2 ^ k * (n / 2 ^ 32 % 2 ^ 32 * 2 ^ (32 - k)) := by
    rw [mul_comm _ (2 ^ (32 - k)), ← mul_assoc, ← low]
  rw [pair, shifted, add_mul_div_left _ _ (Nat.two_pow_pos k)]

theorem joined_upto (i : ℕ) (inside : k ≤ 32) :
    (load bytes i >>> k ||| load bytes (i + 4) <<< (32 - k)).Upto
      (ofLeBytes bytes / 2 ^ (8 * i + k) % 2 ^ (64 - k)) (2 ^ (64 - k) - 1) := by
  have split : 2 ^ 32 = 2 ^ (32 - k) * 2 ^ k := by rw [← pow_add, Nat.sub_add_cancel inside]
  have low : (2 ^ 32 - 1) / 2 ^ k < 2 ^ (32 - k) := by
    rw [Nat.div_lt_iff_lt_mul (Nat.two_pow_pos k), ← split]
    decide
  have room : (2 ^ 32 - 1) * 2 ^ (32 - k) < 2 ^ 64 := by
    have : 2 ^ (32 - k) ≤ 2 ^ 32 := Nat.pow_le_pow_right (by decide) (sub_le 32 k)
    omega
  have next : ofLeBytes bytes / 2 ^ (8 * (i + 4)) = ofLeBytes bytes / 2 ^ (8 * i) / 2 ^ 32 := by
    rw [Nat.div_div_eq_div_mul, mul_add, pow_add]
  refine ((((load_upto bytes i).shiftRight k).orShift (load_upto bytes (i + 4)) low
    room).congr ?_).tighten ?_
  · rw [next, join_words _ inside, Nat.div_div_eq_div_mul, pow_add]
  · exact le_sub_one_of_lt (mod_lt _ (Nat.two_pow_pos _))

theorem shifted_upto (i : ℕ) (inside : k ≤ 32) :
    (load bytes i >>> k).Upto (ofLeBytes bytes / 2 ^ (8 * i + k) % 2 ^ (32 - k))
      ((2 ^ 32 - 1) / 2 ^ k) := by
  refine ((load_upto bytes i).shiftRight k).congr ?_
  have cut := mod_mul_right_div_self (ofLeBytes bytes / 2 ^ (8 * i)) (2 ^ k) (2 ^ (32 - k))
  rwa [← pow_add 2 k, add_sub_of_le inside, Nat.div_div_eq_div_mul, ← pow_add] at cut

/-! ## The point -/

/-- Masking a limb of a number and masking the number. -/
theorem and_limb (n mask i : ℕ) :
    (n / 2 ^ i % 2 ^ 26) &&& (mask / 2 ^ i % 2 ^ 26) = (n &&& mask) / 2 ^ i % 2 ^ 26 := by
  rw [and_div_two_pow, and_mod_two_pow]

theorem mod_and_of_lt {n mask : ℕ} (small : mask < 2 ^ k) : n % 2 ^ k &&& mask = n &&& mask := by
  rw [← mod_eq_of_lt (and_le_right.trans_lt small : n &&& mask < 2 ^ k),
    and_mod_two_pow, mod_eq_of_lt small]

theorem masked_upto {n i m : ℕ} (upto : x.Upto (n / 2 ^ i % 2 ^ j) b)
    (same : clampMask / 2 ^ i % 2 ^ 26 = m) (narrow : m < 2 ^ j) :
    (x &&& .ofNat 64 m).Upto ((n &&& clampMask) / 2 ^ i % 2 ^ 26) (2 ^ 26 - 1) := by
  have limb : m < 2 ^ 26 := same ▸ mod_lt _ (by decide)
  refine ((upto.and (.ofNat (limb.trans (by decide)))).congr ?_).mono (le_sub_one_of_lt limb)
  rw [← and_limb, same, mod_and_of_lt narrow, mod_and_of_lt limb]

theorem r_eq : r key = ofLeBytes key.val &&& clampMask := by
  rw [r, ofLeBytes_field, pow_zero, Nat.div_one]
  exact mod_and_of_lt (k := 128) (by decide)

theorem rLimbs_upto (key : Bytes 32) :
    AllUpto (rLimbs key) (Five.digits base (r key)) (2 ^ 26 - 1) := by
  rw [r_eq, digits_base]
  constructor
  · exact masked_upto (load_upto key.val 0) rfl (by decide)
  · exact masked_upto (joined_upto key.val 0 (by decide)) rfl (by decide)
  · exact masked_upto (joined_upto key.val 4 (by decide)) rfl (by decide)
  · exact masked_upto (joined_upto key.val 8 (by decide)) rfl (by decide)
  · exact masked_upto (shifted_upto key.val 12 (by decide)) rfl (by decide)

/-! ## The blocks -/

theorem ofLeBytes_padded : ofLeBytes (padded chunk) = blockValue chunk := by
  have zeros (k : ℕ) : ofLeBytes (replicate k 0) = 0 := by
    induction k with
    | zero => rfl
    | succ k ih => rw [replicate_succ, ofLeBytes_cons, ih]; rfl
  rw [padded, blockValue, ofLeBytes_append, ofLeBytes_append, ofLeBytes_cons, zeros]
  rfl

theorem getD_padded (short : chunk.length ≤ 16) :
    ((padded chunk).getD 16 0).toNat = blockValue chunk / 2 ^ 128 := by
  have length : (padded chunk).length = 17 := by
    rw [padded, length_append, length_cons, length_replicate]
    omega
  have last : (padded chunk).drop 16 = [(padded chunk).getD 16 0] := by
    rw [drop_eq_getElem_cons (by omega), drop_of_length_le length.le,
      getD_eq_getElem?_getD, getElem?_eq_getElem, Option.getD_some]
  have byte := ofLeBytes_drop (padded chunk) 16
  rw [last, ofLeBytes_cons, ofLeBytes_nil, ofLeBytes_padded] at byte
  rw [← Nat.add_zero (UInt8.toNat _), byte]
  rfl

theorem limb_upto {n i : ℕ} (upto : x.Upto (n / 2 ^ i % 2 ^ j) b) (wide : 26 ≤ j) :
    (x &&& .ofNat 64 0x3FFFFFF).Upto (n / 2 ^ i % 2 ^ 26) (2 ^ 26 - 1) :=
  (upto.mask mask26_upto).congr (mod_mod_of_dvd _ (pow_dvd_pow 2 wide))

theorem addChunk_upto (limbs : AllUpto h n b) (room : b + (2 ^ 26 - 1) < 2 ^ 64)
    (short : chunk.length ≤ 16) :
    AllUpto (addChunk h chunk) (n.add (Five.digits base (blockValue chunk)))
      (b + (2 ^ 26 - 1)) := by
  have small := blockValue_lt short
  rw [digits_base, ← ofLeBytes_padded]
  constructor
  · exact limbs.l0.add (limb_upto (load_upto _ 0) (by decide)) room
  · exact limbs.l1.add (limb_upto (joined_upto _ 0 (by decide)) (by decide)) room
  · exact limbs.l2.add (limb_upto (joined_upto _ 4 (by decide)) (by decide)) room
  · exact limbs.l3.add (limb_upto (joined_upto _ 8 (by decide)) (by decide)) room
  refine limbs.l4.add ?_ room
  have top : (Word.ofNat 64 ((padded chunk).getD 16 0).toNat).Upto
      (blockValue chunk / 2 ^ 128) 1 := by
    have bit : blockValue chunk / 2 ^ 128 ≤ 1 := by omega
    refine ((Word.Upto.ofNat ?_).congr (getD_padded short)).tighten bit
    exact (getD_padded short).trans_lt (by omega)
  refine (((shifted_upto _ 12 (by decide)).orShift top (by decide) (by decide)).congr ?_).mono
    (by decide)
  rw [ofLeBytes_padded]
  change _ = blockValue chunk / 2 ^ 104 % 2 ^ 26
  omega

/-! ## Products and carries -/

theorem dot_upto {x0 x1 x2 x3 x4 y0 y1 y2 y3 y4 : Word 64} {m0 m1 m2 m3 m4 n0 n1 n2 n3 n4 c : ℕ}
    (h0 : x0.Upto m0 b) (h1 : x1.Upto m1 b) (h2 : x2.Upto m2 b) (h3 : x3.Upto m3 b)
    (h4 : x4.Upto m4 b) (k0 : y0.Upto n0 c) (k1 : y1.Upto n1 c) (k2 : y2.Upto n2 c)
    (k3 : y3.Upto n3 c) (k4 : y4.Upto n4 c) (room : 5 * (b * c) < 2 ^ 64) :
    (x0 * y0 + x1 * y1 + x2 * y2 + x3 * y3 + x4 * y4).Upto
      (m0 * n0 + m1 * n1 + m2 * n2 + m3 * n3 + m4 * n4) (5 * (b * c)) := by
  have one : b * c < 2 ^ 64 := by omega
  exact (((((h0.mul k0 one).add (h1.mul k1 one) (by omega)).add (h2.mul k2 one) (by omega)).add
    (h3.mul k3 one) (by omega)).add (h4.mul k4 one) (by omega)).mono (by omega)

theorem mulR_upto {r : Limbs} {m : Five ℕ} (first : AllUpto h m b)
    (second : AllUpto r n (2 ^ 26 - 1)) (room : 5 * (b * ((2 ^ 26 - 1) * 5)) < 2 ^ 64) :
    AllUpto (mulR h r) (Five.mulFold 5 m n) (5 * (b * ((2 ^ 26 - 1) * 5))) := by
  have five : (5 : Word 64).Upto 5 5 := .ofNat (by decide)
  have wide {x : Word 64} {k : ℕ} (limb : x.Upto k (2 ^ 26 - 1)) : x.Upto k ((2 ^ 26 - 1) * 5) :=
    limb.mono (by decide)
  have times {x : Word 64} {k : ℕ} (limb : x.Upto k (2 ^ 26 - 1)) :
      (x * 5).Upto (k * 5) ((2 ^ 26 - 1) * 5) := limb.mul five (by decide)
  obtain ⟨h0, h1, h2, h3, h4⟩ := first
  obtain ⟨r0, r1, r2, r3, r4⟩ := second
  constructor
  · refine (dot_upto h0 h1 h2 h3 h4 (wide r0) (times r4) (times r3) (times r2) (times r1)
      room).congr ?_
    simp only [Five.mulFold]
    ring
  · refine (dot_upto h0 h1 h2 h3 h4 (wide r1) (wide r0) (times r4) (times r3) (times r2)
      room).congr ?_
    simp only [Five.mulFold]
    ring
  · refine (dot_upto h0 h1 h2 h3 h4 (wide r2) (wide r1) (wide r0) (times r4) (times r3)
      room).congr ?_
    simp only [Five.mulFold]
    ring
  · refine (dot_upto h0 h1 h2 h3 h4 (wide r3) (wide r2) (wide r1) (wide r0) (times r4)
      room).congr ?_
    simp only [Five.mulFold]
    ring
  · exact dot_upto h0 h1 h2 h3 h4 (wide r4) (wide r3) (wide r2) (wide r1) (wide r0) room

/-- The bounds between blocks: all limbs but one are below the base. -/
structure Carried (x : Limbs) (n : Five ℕ) : Prop where
  l0 : x.l0.Upto n.l0 (2 ^ 26 - 1)
  l1 : x.l1.Upto n.l1 (2 ^ 26 + 2 ^ 10)
  l2 : x.l2.Upto n.l2 (2 ^ 26 - 1)
  l3 : x.l3.Upto n.l3 (2 ^ 26 - 1)
  l4 : x.l4.Upto n.l4 (2 ^ 26 - 1)

theorem Carried.allUpto {x : Limbs} (carried : Carried x n) : AllUpto x n (2 ^ 26 + 2 ^ 10) :=
  ⟨carried.l0.mono (by decide), carried.l1, carried.l2.mono (by decide),
    carried.l3.mono (by decide), carried.l4.mono (by decide)⟩

theorem carryUp_upto {x : Limbs} (limbs : AllUpto x n (2 ^ 59)) :
    Carried (carryUp x) (Five.carry base 5 n) := by
  obtain ⟨h0, h1, h2, h3, h4⟩ := limbs
  have d1 := h1.add (h0.shiftRight 26) (by decide)
  have d2 := h2.add (d1.shiftRight 26) (by decide)
  have d3 := h3.add (d2.shiftRight 26) (by decide)
  have d4 := h4.add (d3.shiftRight 26) (by decide)
  have five : (5 : Word 64).Upto 5 5 := .ofNat (by decide)
  have d0 := ((h0.mask mask26_upto).add ((d4.shiftRight 26).mul five (by decide))
    (by decide)).congr (m := n.l0 % 2 ^ 26 + 5 * _) (by rw [mul_comm _ 5])
  exact ⟨d0.mask mask26_upto, ((d1.mask mask26_upto).add (d0.shiftRight 26) (by decide)).mono
    (by decide), d2.mask mask26_upto, d3.mask mask26_upto, d4.mask mask26_upto⟩

theorem base_pow : base ^ 5 = prime1305 + 5 := rfl

/-- One block, with limbs that are natural numbers. -/
def macStep (key : Bytes 32) (n : Five ℕ) (chunk : List UInt8) : Five ℕ :=
  Five.carry base 5 (Five.mulFold 5 (n.add (Five.digits base (blockValue chunk)))
    (Five.digits base (r key)))

/-- The limbs stay small. -/
theorem processBlock_upto (carried : Carried h n) (short : chunk.length ≤ 16) :
    Carried (processBlock (rLimbs key) h chunk) (macStep key n chunk) := by
  have added := addChunk_upto carried.allUpto (by decide) short
  exact carryUp_upto ((mulR_upto added (rLimbs_upto key) (by decide)).mono (by decide))

/-- The limbs stand for `(h + block) * r`. -/
theorem value_macStep (value : n.value base ≡ a [MOD prime1305]) (short : chunk.length ≤ 16) :
    (macStep key n chunk).value base ≡ (a + blockValue chunk) * r key [MOD prime1305] := by
  have block : (Five.digits base (blockValue chunk)).value base = blockValue chunk := by
    rw [Five.value_digits, mod_eq_of_lt]
    exact (blockValue_lt short).trans (by decide)
  have point : (Five.digits base (r key)).value base = r key := by
    rw [Five.value_digits, mod_eq_of_lt]
    exact (r_lt).trans (by decide)
  calc _ ≡ _ [MOD prime1305] := Five.value_carry_modEq (by decide) base_pow _
    _ ≡ _ [MOD prime1305] := Five.value_mulFold base_pow _ _
    _ ≡ _ [MOD prime1305] := by
      rw [Five.value_add, block, point]
      exact (value.add_right _).mul_right _

/-- The limbs after the last block. -/
def macLimbs (key : Bytes 32) (message : List UInt8) : Five ℕ :=
  (chunks 16 message).foldl (macStep key) ⟨0, 0, 0, 0, 0⟩

theorem blocks_upto (key : Bytes 32) (message : List UInt8) :
    Carried ((chunks 16 message).foldl (processBlock (rLimbs key)) ⟨0, 0, 0, 0, 0⟩)
        (macLimbs key message) ∧
      (macLimbs key message).value base ≡ residue key message [MOD prime1305] ∧
        (r key = 0 → (macLimbs key message).value base = 0) := by
  -- over any list of short blocks, from any limbs
  have loop (list : List (List UInt8)) (short : ∀ chunk ∈ list, chunk.length ≤ 16) {h : Limbs}
      {n : Five ℕ} {a : ℕ} (carried : Carried h n)
      (value : n.value base ≡ a [MOD prime1305])
      (zero : r key = 0 → n.value base = 0) :
      Carried (list.foldl (processBlock (rLimbs key)) h) (list.foldl (macStep key) n) ∧
        (list.foldl (macStep key) n).value base ≡
          (list.map blockValue).foldl (fun a c => (a + c) * r key) a [MOD prime1305] ∧
          (r key = 0 → (list.foldl (macStep key) n).value base = 0) := by
    induction list generalizing h n a with
    | nil => exact ⟨carried, value, zero⟩
    | cons chunk list ih =>
      have first := short chunk mem_cons_self
      exact ih (fun other mem => short other (mem_cons_of_mem _ mem))
        (processBlock_upto carried first) (value_macStep value first)
        fun zero => by rw [macStep, zero, Five.carry_mulFold_zero]
  have start : Carried ⟨0, 0, 0, 0, 0⟩ ⟨0, 0, 0, 0, 0⟩ := by
    have limb {b : ℕ} : (0 : Word 64).Upto 0 b := (Word.Upto.ofNat (by decide)).mono (zero_le b)
    exact ⟨limb, limb, limb, limb, limb⟩
  obtain ⟨carried, value, zero⟩ := loop (chunks 16 message)
    (fun chunk mem => (length_of_mem_chunks (by decide) mem).2) start (a := 0) rfl (fun _ => rfl)
  refine ⟨carried, value.trans ?_, zero⟩
  rw [foldl_horner, zero_mul, zero_add]
  exact (mod_modEq _ _).symm

/-! ## The last carries -/

theorem carryLast_upto (carried : Carried h n) :
    AllUpto (carryLast h) (Five.digits base ((Five.carry base 5 n).value base)) (2 ^ 26 - 1) ∧
      (Five.carry base 5 n).value base < 2 ^ 130 := by
  obtain ⟨h0, h1, h2, h3, h4⟩ := carried
  have five : (5 : Word 64).Upto 5 5 := .ofNat (by decide)
  have d2 := h2.add (h1.shiftRight 26) (by decide)
  have d3 := h3.add (d2.shiftRight 26) (by decide)
  have d4 := h4.add (d3.shiftRight 26) (by decide)
  have d0 := h0.add ((d4.shiftRight 26).mul five (by decide)) (by decide)
  have e1 := (h1.mask mask26_upto).add (d0.shiftRight 26) (by decide)
  have first : n.l0 % 2 ^ 26 = n.l0 ∧ n.l0 / 2 ^ 26 = 0 := by
    have b0 := h0.le
    omega
  have shape : Five.carry base 5 n =
      let t2 := n.l2 + n.l1 / 2 ^ 26
      let t3 := n.l3 + t2 / 2 ^ 26
      let t4 := n.l4 + t3 / 2 ^ 26
      let t0 := n.l0 + t4 / 2 ^ 26 * 5
      ⟨t0 % 2 ^ 26, n.l1 % 2 ^ 26 + t0 / 2 ^ 26, t2 % 2 ^ 26, t3 % 2 ^ 26, t4 % 2 ^ 26⟩ := by
    simp only [Five.carry, show base = 2 ^ 26 from rfl, first.1, first.2, add_zero, mul_comm 5]
  -- a carry out of the top has gone through all limbs, so there is room for it in the second
  have second : (Five.carry base 5 n).l1 ≤ 2 ^ 26 - 1 := by
    have b1 := h1.le
    have b2 := h2.le
    have b3 := h3.le
    have b4 := h4.le
    rw [shape]
    dsimp only
    omega
  have limbs : AllUpto (carryLast h) (Five.carry base 5 n) (2 ^ 26 - 1) := by
    rw [shape] at second ⊢
    exact ⟨d0.mask mask26_upto, e1.tighten second, d2.mask mask26_upto, d3.mask mask26_upto,
      d4.mask mask26_upto⟩
  have below {k : ℕ} (le : k ≤ 2 ^ 26 - 1) : k < base := lt_of_le_sub_one (by decide) le
  constructor
  · rwa [Five.digits_value (below limbs.l0.le) (below limbs.l1.le) (below limbs.l2.le)
      (below limbs.l3.le) (below limbs.l4.le)]
  · exact Five.value_lt (below limbs.l0.le) (below limbs.l1.le) (below limbs.l2.le)
      (below limbs.l3.le) (below limbs.l4.le)

/-- The number that the limbs stand for after the last carries. -/
def macNumber (key : Bytes 32) (message : List UInt8) : ℕ :=
  (Five.carry base 5 (macLimbs key message)).value base

theorem macNumber_lt (key : Bytes 32) (message : List UInt8) : macNumber key message < 2 ^ 130 :=
  (carryLast_upto (blocks_upto key message).1).2

/-- The number is the residue, unless that is below five. -/
theorem macNumber_cases (key : Bytes 32) (message : List UInt8) :
    macNumber key message = residue key message ∨
      (macNumber key message = residue key message + prime1305 ∧ residue key message < 5) := by
  have congruent : macNumber key message ≡ residue key message [MOD prime1305] :=
    (Five.value_carry_modEq (by decide) base_pow _).trans (blocks_upto key message).2.1
  have below : residue key message < prime1305 := mod_lt _ (by decide)
  have small := macNumber_lt key message
  rw [Nat.ModEq, mod_eq_of_lt below] at congruent
  unfold prime1305 at congruent below ⊢
  omega

theorem macNumber_of_r_eq_zero (zero : r key = 0) : macNumber key message = 0 := by
  rw [macNumber, Five.value_carry (by decide), (blocks_upto key message).2.2 zero]
  rfl

/-! ## The choice between the two -/

/-- The bounds after the last carries. The top limb may have been carried into. -/
structure Reduced (x : Limbs) (n : Five ℕ) : Prop where
  l0 : x.l0.Upto n.l0 (2 ^ 26 - 1)
  l1 : x.l1.Upto n.l1 (2 ^ 26 - 1)
  l2 : x.l2.Upto n.l2 (2 ^ 26 - 1)
  l3 : x.l3.Upto n.l3 (2 ^ 26 - 1)
  l4 : x.l4.Upto n.l4 (2 ^ 27 - 1)

theorem plusFive_upto (limbs : AllUpto h (Five.digits base a) (2 ^ 26 - 1)) (small : a < 2 ^ 130) :
    Reduced (plusFive h) ⟨(a + 5) % 2 ^ 26, (a + 5) / 2 ^ 26 % 2 ^ 26, (a + 5) / 2 ^ 52 % 2 ^ 26,
      (a + 5) / 2 ^ 78 % 2 ^ 26, (a + 5) / 2 ^ 104⟩ := by
  rw [digits_base] at limbs
  obtain ⟨h0, h1, h2, h3, h4⟩ := limbs
  have five : (5 : Word 64).Upto 5 5 := .ofNat (by decide)
  have g0 := h0.add five (by decide)
  have g1 := h1.add (g0.shiftRight 26) (by decide)
  have g2 := h2.add (g1.shiftRight 26) (by decide)
  have g3 := h3.add (g2.shiftRight 26) (by decide)
  have g4 := h4.add (g3.shiftRight 26) (by decide)
  refine ⟨(g0.mask mask26_upto).congr ?_, (g1.mask mask26_upto).congr ?_,
    (g2.mask mask26_upto).congr ?_, (g3.mask mask26_upto).congr ?_, (g4.congr ?_).mono (by decide)⟩
  all_goals dsimp only; omega

/-- What the mask makes of `a`: where `(a + 5) >> 106`, less one, has a one at the place within the
limb, the bit of `a`, and elsewhere that of `a + 5`. -/
def selectedBit (a k : ℕ) : Bool :=
  if (a + 5) / 2 ^ 106 = 0 ∨ ((a + 5) / 2 ^ 106 - 1).testBit (k % 26) then a.testBit k
  else (a + 5).testBit k

theorem testBit_limb (n i : ℕ) (inside : j < 26) :
    (n / 2 ^ (26 * i) % 2 ^ 26).testBit j = n.testBit (26 * i + j) := by
  rw [testBit_mod_two_pow, decide_eq_true inside, Bool.true_and, testBit_div_two_pow, add_comm]

theorem selectReduced_upto (limbs : AllUpto h (Five.digits base a) (2 ^ 26 - 1))
    (small : a < 2 ^ 130) : ∃ n, Reduced (selectReduced h) n ∧
      ∀ k < 130, (n.value base).testBit k = selectedBit a k := by
  obtain ⟨g0, g1, g2, g3, g4⟩ := plusFive_upto limbs small
  have top := (g4.shiftRight 2).congr (m := (a + 5) / 2 ^ 106) (by dsimp only; omega)
  rw [digits_base] at limbs
  obtain ⟨h0, h1, h2, h3, h4⟩ := limbs
  obtain ⟨v0, s0, bits0⟩ := h0.select g0 top
  obtain ⟨v1, s1, bits1⟩ := h1.select g1 top
  obtain ⟨v2, s2, bits2⟩ := h2.select g2 top
  obtain ⟨v3, s3, bits3⟩ := h3.select g3 top
  obtain ⟨v4, s4, bits4⟩ := (h4.mono (by decide : _ ≤ 2 ^ 27 - 1)).select g4 top
  refine ⟨⟨v0, v1, v2, v3, v4⟩, ⟨s0, s1, s2, s3, s4⟩, ?_⟩
  have l0 := s0.le
  have l1 := s1.le
  have l2 := s2.le
  have l3 := s3.le
  intro k inside
  obtain ⟨i, j, within, rfl⟩ : ∃ i j, j < 26 ∧ k = 26 * i + j :=
    ⟨k / 26, k % 26, mod_lt _ (by decide), (div_add_mod k 26).symm⟩
  have place : (26 * i + j) % 26 = j := by omega
  rw [selectedBit, place, ← testBit_limb _ i within, ← testBit_limb a i within,
    ← testBit_limb (a + 5) i within]
  -- the limb that the bit is in
  have range : i < 5 := by omega
  interval_cases i
  · rw [show Five.value base ⟨v0, v1, v2, v3, v4⟩ / 2 ^ (26 * 0) % 2 ^ 26 = v0 by
      simp only [Five.value, base]; omega, bits0 j (by omega)]
    simp
  · rw [show Five.value base ⟨v0, v1, v2, v3, v4⟩ / 2 ^ (26 * 1) % 2 ^ 26 = v1 by
      simp only [Five.value, base]; omega, bits1 j (by omega)]
  · rw [show Five.value base ⟨v0, v1, v2, v3, v4⟩ / 2 ^ (26 * 2) % 2 ^ 26 = v2 by
      simp only [Five.value, base]; omega, bits2 j (by omega)]
  · rw [show Five.value base ⟨v0, v1, v2, v3, v4⟩ / 2 ^ (26 * 3) % 2 ^ 26 = v3 by
      simp only [Five.value, base]; omega, bits3 j (by omega)]
  · rw [show Five.value base ⟨v0, v1, v2, v3, v4⟩ / 2 ^ (26 * 4) = v4 by
      simp only [Five.value, base]; omega]
    simp only [testBit_mod_two_pow, decide_eq_true within, Bool.true_and, bits4 j (by omega)]

/-! ## The bytes -/

theorem load_s (inside : j < 4) :
    (load key.val (16 + 4 * j)).Upto (s key / 2 ^ (32 * j) % 2 ^ 32) (2 ^ 32 - 1) := by
  have half : load key.val (16 + 4 * j) = load (field 16 16 key.val) (4 * j) := by
    rw [load, load, field_field (by omega)]
  have upto := load_upto (field 16 16 key.val) (4 * j)
  rwa [← half, ← mul_assoc] at upto

theorem sum_word {y c : Word 64} {v s : ℕ}
    (first : x.Upto (v / 2 ^ (32 * j) % 2 ^ 32) (2 ^ 32 - 1))
    (second : y.Upto (s / 2 ^ (32 * j) % 2 ^ 32) (2 ^ 32 - 1)) (carry : c.Upto k 1)
    (sofar : v / 2 ^ (32 * j) + s / 2 ^ (32 * j) + k = (v + s) / 2 ^ (32 * j)) :
    toLeBytes 4 ((x + y + c).cast 32).value = toLeBytes 4 ((v + s) / 2 ^ (32 * j)) ∧
      ∃ k', ((x + y + c) >>> 32).Upto k' 1 ∧
        v / 2 ^ (32 * (j + 1)) + s / 2 ^ (32 * (j + 1)) + k' = (v + s) / 2 ^ (32 * (j + 1)) := by
  have sum := (first.add second (by decide)).add carry (by decide)
  have further (n : ℕ) : n / 2 ^ (32 * (j + 1)) = n / 2 ^ (32 * j) / 2 ^ 32 := by
    rw [Nat.div_div_eq_div_mul, ← pow_add, mul_succ]
  constructor
  · rw [sum.value_cast, toLeBytes_inj]
    omega
  · refine ⟨_, sum.shiftRight 32, ?_⟩
    rw [further, further, further]
    omega

theorem Reduced.words (limbs : Reduced h n) :
    ((h.l0 ||| h.l1 <<< 26) &&& mask32).Upto (n.value base / 2 ^ 0 % 2 ^ 32) (2 ^ 32 - 1) ∧
      ((h.l1 >>> 6 ||| h.l2 <<< 20) &&& mask32).Upto (n.value base / 2 ^ 32 % 2 ^ 32) (2 ^ 32 - 1) ∧
      ((h.l2 >>> 12 ||| h.l3 <<< 14) &&& mask32).Upto (n.value base / 2 ^ 64 % 2 ^ 32)
        (2 ^ 32 - 1) ∧
      ((h.l3 >>> 18 ||| h.l4 <<< 8) &&& mask32).Upto (n.value base / 2 ^ 96 % 2 ^ 32)
        (2 ^ 32 - 1) := by
  obtain ⟨h0, h1, h2, h3, h4⟩ := limbs
  have mask : mask32.Upto (2 ^ 32 - 1) (2 ^ 32 - 1) := .ofNat (by decide)
  have f0 := (h0.orShift h1 (k := 26) (by decide) (by decide)).mask mask
  have f1 := ((h1.shiftRight 6).orShift h2 (k := 20) (by decide) (by decide)).mask mask
  have f2 := ((h2.shiftRight 12).orShift h3 (k := 14) (by decide) (by decide)).mask mask
  have f3 := ((h3.shiftRight 18).orShift h4 (k := 8) (by decide) (by decide)).mask mask
  have b0 := h0.le
  have b1 := h1.le
  have b2 := h2.le
  refine ⟨f0.congr ?_, f1.congr ?_, f2.congr ?_, f3.congr ?_⟩
  all_goals simp only [Five.value, base]; omega

theorem addS_eq (limbs : Reduced h n) : addS h key = toLeBytes 16 (n.value base + s key) := by
  obtain ⟨f0, f1, f2, f3⟩ := limbs.words
  have zero : (0 : Word 64).Upto 0 1 := (Word.Upto.ofNat (by decide)).mono (by decide)
  obtain ⟨word0, k0, carry0, sum0⟩ :=
    sum_word (j := 0) f0 (load_s (by decide)) zero (by simp)
  obtain ⟨word1, k1, carry1, sum1⟩ := sum_word (j := 1) f1 (load_s (by decide)) carry0 sum0
  obtain ⟨word2, k2, carry2, sum2⟩ := sum_word (j := 2) f2 (load_s (by decide)) carry1 sum1
  obtain ⟨word3, -⟩ := sum_word (j := 3) f3 (load_s (by decide)) carry2 sum2
  have cut (n : ℕ) : toLeBytes 16 n = toLeBytes 4 (n / 2 ^ (32 * 0)) ++
      (toLeBytes 4 (n / 2 ^ (32 * 1)) ++ (toLeBytes 4 (n / 2 ^ (32 * 2)) ++
        toLeBytes 4 (n / 2 ^ (32 * 3)))) := by
    rw [toLeBytes_add 4 12, toLeBytes_add 4 8, toLeBytes_add 4 4, Nat.div_div_eq_div_mul,
      Nat.div_div_eq_div_mul, pow_zero, Nat.div_one]
    rfl
  rw [cut, ← word0, ← word1, ← word2, ← word3, Word.add_zero]
  rfl

/-! ## The whole code -/

/-- The condition on the residue: the mask leaves all of its lowest 128 bits in place. -/
def KeepsBits (n : ℕ) : Prop := ∀ k < 128, selectedBit n k = n.testBit k

instance (n : ℕ) : Decidable (KeepsBits n) := inferInstanceAs (Decidable (∀ k < 128, _))

/-- A number that has not been reduced has a wrong bit. -/
theorem not_selectedBit_unreduced {n : ℕ} (small : n < 5) :
    selectedBit (n + prime1305) 3 ≠ n.testBit 3 := by
  interval_cases n <;> decide +kernel

theorem poly1305Mac_eq_iff : poly1305Mac key message = poly1305 key message ↔
      macNumber key message = residue key message ∧ KeepsBits (residue key message) := by
  obtain ⟨limbs, small⟩ := carryLast_upto (blocks_upto key message).1
  obtain ⟨n, reduced, bits⟩ := selectReduced_upto limbs small
  change ∀ k < 130, (n.value base).testBit k = selectedBit (macNumber key message) k at bits
  rw [poly1305Mac, addS_eq reduced, poly1305, toLeBytes_inj,
    show 256 ^ 16 = 2 ^ 128 from rfl, mod_mod]
  constructor
  · intro same
    have low : n.value base % 2 ^ 128 = residue key message % 2 ^ 128 :=
      ModEq.add_right_cancel' _ same
    have selected : ∀ k < 128,
        selectedBit (macNumber key message) k = (residue key message).testBit k := by
      intro k inside
      have bit := congrArg (Nat.testBit · k) low
      simp only [testBit_mod_two_pow, decide_eq_true inside, Bool.true_and] at bit
      rw [← bits k (by omega), bit]
    rcases macNumber_cases key message with equal | ⟨larger, below⟩
    · rw [equal] at selected
      exact ⟨equal, selected⟩
    · rw [larger] at selected
      exact absurd (selected 3 (by decide)) (not_selectedBit_unreduced below)
  · rintro ⟨equal, keeps⟩
    rw [equal] at bits
    refine ModEq.add_right _ (eq_of_testBit_eq fun k => ?_)
    by_cases inside : k < 128
    · simp only [testBit_mod_two_pow]
      rw [bits k (by omega), keeps k inside]
    · simp only [testBit_mod_two_pow, inside, decide_false, Bool.false_and]

end Tls

/-! ## With 128 bits -/

namespace ChaCha20

/-- The number of some limbs, which run into each other where they are too large. -/
def joined (x : Five ℕ) : ℕ :=
  (x.l0 ||| x.l1 <<< 26 ||| x.l2 <<< 52 ||| x.l3 <<< 78 ||| x.l4 <<< 104) % 2 ^ 128

/-- The sum limb by limb. A carry is not added to the next limb, but only sets its lowest bit. -/
def orSum (a b : ℕ) : ℕ := joined ((Five.digits base a).add (Five.digits base b))

/-- The number after the last block. -/
def tagNumber (key : Bytes 32) (message : List UInt8) : ℕ :=
  (chunks 16 message).foldl (fun acc chunk => orSum acc (blockValue chunk) * r key % 2 ^ 128) 0

/-- Only 24 bits of the top limb count. -/
theorem joined_congr {x y : Five ℕ} (l0 : x.l0 = y.l0) (l1 : x.l1 = y.l1) (l2 : x.l2 = y.l2)
    (l3 : x.l3 = y.l3) (l4 : x.l4 % 2 ^ 24 = y.l4 % 2 ^ 24) : joined x = joined y := by
  have top (n : ℕ) : n <<< 104 % 2 ^ 128 = (n % 2 ^ 24) <<< 104 := by
    rw [shiftLeft_eq, shiftLeft_eq]
    omega
  simp only [joined, or_mod_two_pow, top, l0, l1, l2, l3, l4]

/-- Digits do not run into each other. -/
theorem joined_digits (n : ℕ) : joined (Five.digits base n) = n % 2 ^ 128 := by
  have above {low d k : ℕ} (small : low < 2 ^ k) : low ||| d <<< k = low + d * 2 ^ k := by
    rw [Nat.or_comm, ← shiftLeft_add_eq_or_of_lt small, shiftLeft_eq, Nat.add_comm]
  rw [digits_base, joined]
  dsimp only
  rw [above (k := 26) (by omega), above (k := 52) (by omega), above (k := 78) (by omega),
    above (k := 104) (by omega)]
  omega

theorem toNat_join (x : Five (BitVec 64)) : (join x).toNat =
    joined ⟨x.l0.toNat, x.l1.toNat, x.l2.toNat, x.l3.toNat, x.l4.toNat⟩ := by
  have wide (y : BitVec 64) : (y.setWidth 128).toNat = y.toNat := by
    rw [BitVec.toNat_setWidth, mod_eq_of_lt (y.isLt.trans (by decide))]
  simp only [join, joined, BitVec.toNat_or, BitVec.toNat_shiftLeft, wide, or_mod_two_pow]
  rw [mod_eq_of_lt (x.l0.isLt.trans (by decide))]

variable (n : BitVec 128)

theorem toNat_limb (k : ℕ) :
    ((n >>> k &&& 0x3ffffff).setWidth 64).toNat = n.toNat / 2 ^ k % 2 ^ 26 := by
  rw [BitVec.toNat_setWidth, BitVec.toNat_and, BitVec.toNat_ushiftRight, show (0x3ffffff : BitVec
    128).toNat = 2 ^ 26 - 1 from rfl, and_two_pow_sub_one_eq_mod, shiftRight_eq_div_pow]
  exact mod_eq_of_lt ((mod_lt _ (by decide)).trans (by decide))

theorem toNat_split : (⟨(split n).l0.toNat, (split n).l1.toNat, (split n).l2.toNat,
    (split n).l3.toNat, (split n).l4.toNat⟩ : Five ℕ) = Five.digits base n.toNat := by
  rw [digits_base]
  ext1
  · exact toNat_limb n 0
  · exact toNat_limb n 26
  · exact toNat_limb n 52
  · exact toNat_limb n 78
  · exact toNat_limb n 104

theorem join_split : join (split n) = n := by
  refine BitVec.eq_of_toNat_eq ?_
  rw [toNat_join, toNat_split, joined_digits, mod_eq_of_lt n.isLt]

theorem toNat_rClamped : (rClamped key).toNat = r key := by
  have small : ofLeBytes (field 0 16 key.val) < 2 ^ 128 := by
    have := ofLeBytes_lt (field 0 16 key.val)
    rwa [length_field (by rw [key.property]; decide)] at this
  rw [rClamped, BitVec.toNat_and, BitVec.toNat_ofNat, mod_eq_of_lt small]
  rfl

/-- The sum of a round. The appended bit of a full block is beyond the 128 bits, whether or not it
is added. -/
theorem toNat_join_add {acc num : BitVec 128} {b : ℕ} (value : num.toNat = b % 2 ^ 128)
    {top : BitVec 64} (bit : top.toNat % 2 ^ 24 = 0) : (join { addLimbs (split acc) (split num) with
      l4 := (addLimbs (split acc) (split num)).l4 + top }).toNat = orSum acc.toNat b := by
  have first := toNat_split acc
  have second := toNat_split num
  rw [digits_base, Five.mk.injEq] at first second
  rw [value] at second
  obtain ⟨a0, a1, a2, a3, a4⟩ := first
  obtain ⟨n0, n1, n2, n3, n4⟩ := second
  rw [toNat_join, orSum, digits_base, digits_base]
  refine joined_congr ?_ ?_ ?_ ?_ ?_ <;> simp only [addLimbs, Five.add, BitVec.toNat_add] <;> omega

/-- One round. -/
theorem tagStep_split (r acc : BitVec 128) (i : ℕ) (chunk : List UInt8) :
    ∃ acc', tagStep (split r) (i, split acc) chunk = (i + chunk.length, split acc') ∧
      acc'.toNat = orSum acc.toNat (blockValue chunk) * r.toNat % 2 ^ 128 := by
  let num := BitVec.ofNat 128 (ofLeBytes (field 0 16 (padded chunk)))
  have value : num.toNat = blockValue chunk % 2 ^ 128 := by
    rw [BitVec.toNat_ofNat, ofLeBytes_field, ofLeBytes_padded, pow_zero, Nat.div_one,
      show 256 ^ 16 = 2 ^ 128 from rfl, mod_mod]
  let sum := addLimbs (split acc) (split num)
  let acc' := join (if i ≤ 15 ∧ chunk.length = 16 then
    { sum with l4 := sum.l4 + (1 : BitVec 64) <<< 24 } else sum)
  have added : acc'.toNat = orSum acc.toNat (blockValue chunk) := by
    unfold acc'
    split
    · exact toNat_join_add value (by decide)
    · have plain := @toNat_join_add acc num (blockValue chunk) value 0#64 rfl
      rwa [BitVec.add_zero] at plain
  have step : tagStep (split r) (i, split acc) chunk =
      (i + chunk.length, split (acc' * join (split r))) := rfl
  refine ⟨acc' * r, by rw [step, join_split], ?_⟩
  rw [BitVec.toNat_mul, added]

theorem toNat_tagAccumulator (key : Bytes 32) (message : List UInt8) :
    (tagAccumulator key message).toNat = tagNumber key message := by
  have loop (list : List (List UInt8)) (i : ℕ) (acc : BitVec 128) :
      (join (list.foldl (tagStep (split (rClamped key))) (i, split acc)).2).toNat =
        list.foldl (fun acc chunk => orSum acc (blockValue chunk) * r key % 2 ^ 128) acc.toNat := by
    induction list generalizing i acc with
    | nil => rw [foldl_nil, foldl_nil, join_split]
    | cons chunk list ih =>
      obtain ⟨acc', step, value⟩ := tagStep_split (rClamped key) acc i chunk
      rw [foldl_cons, foldl_cons, step, ih, value, toNat_rClamped]
  exact loop (chunks 16 message) 0 0

theorem toNat_four_words {w0 w1 w2 w3 : BitVec 128} (h0 : w0.toNat < 2 ^ 32)
    (h1 : w1.toNat < 2 ^ 32) (h2 : w2.toNat < 2 ^ 32) (h3 : w3.toNat < 2 ^ 32) :
    (w0 ||| w1 <<< 32 ||| w2 <<< 64 ||| w3 <<< 96).toNat =
      w0.toNat + w1.toNat * 2 ^ 32 + w2.toNat * 2 ^ 64 + w3.toNat * 2 ^ 96 := by
  have j1 := Word.toNat_or_shiftLeft (b := w1) h0 (by decide)
  have j2 := Word.toNat_or_shiftLeft (b := w2) (k := 64) (by rw [j1]; omega) (by decide)
  have j3 := Word.toNat_or_shiftLeft (b := w3) (k := 96) (by rw [j2]; omega) (by decide)
  omega

theorem toNat_sNum (key : Bytes 32) : (sNum key).toNat = s key := by
  have word {i : ℕ} (inside : i < 4) :
      (BitVec.ofNat 128 (ofLeBytes (field (16 + 4 * i) 4 key.val))).toNat =
        s key / 2 ^ (32 * i) % 2 ^ 32 := by
    rw [← field_field (by omega : 4 * i + 4 ≤ 16), ofLeBytes_field (4 * i),
      show 256 = 2 ^ 8 from rfl, ← pow_mul, ← mul_assoc]
    exact mod_eq_of_lt ((mod_lt _ (by decide)).trans (by decide))
  have below {i : ℕ} (inside : i < 4) :
      (BitVec.ofNat 128 (ofLeBytes (field (16 + 4 * i) 4 key.val))).toNat < 2 ^ 32 :=
    (word inside).trans_lt (mod_lt _ (by decide))
  have small := s_lt key
  refine (toNat_four_words (below (by decide)) (below (by decide)) (below (by decide))
    (below (by decide))).trans ?_
  rw [word (by decide), word (by decide), word (by decide), word (by decide)]
  omega

theorem poly1305Tag_eq_iff (key : Bytes 32) (message : List UInt8) :
    poly1305Tag key message = poly1305 key message ↔
      tagNumber key message = residue key message % 2 ^ 128 := by
  have small := (tagAccumulator key message).isLt
  rw [poly1305Tag, poly1305, toLeBytes_inj, show 256 ^ 16 = 2 ^ 128 from rfl,
    BitVec.toNat_add, toNat_sNum, mod_mod, mod_mod, ← toNat_tagAccumulator]
  constructor
  · intro same
    have low := ModEq.add_right_cancel' _ same
    rwa [Nat.ModEq, mod_eq_of_lt small] at low
  · intro same
    rw [same, mod_add_mod]

theorem orSum_zero (b : ℕ) : orSum 0 b = b % 2 ^ 128 := by
  have zero : (Five.digits base 0).add (Five.digits base b) = Five.digits base b := by
    simp [Five.digits, Five.add]
  rw [orSum, zero, joined_digits]

/-- One block: right if the product is already reduced. -/
theorem poly1305Tag_eq_iff_of_length_le (short : message.length ≤ 16) :
    poly1305Tag key message = poly1305 key message ↔ blockValue message * r key < prime1305 := by
  rcases eq_or_ne message [] with rfl | some
  · have small : blockValue [] * r key < prime1305 := by
      rw [show blockValue [] = 1 from rfl, one_mul]
      exact (r_lt).trans (by decide)
    have zero : tagNumber key [] = residue key [] % 2 ^ 128 := by
      rw [tagNumber, residue, chunks_nil (by decide), map_nil, polynomial, foldl_nil]
      rfl
    exact iff_of_true ((poly1305Tag_eq_iff key []).mpr zero) small
  rw [poly1305Tag_eq_iff, tagNumber, residue, chunks_of_le (by decide) some short, foldl_cons,
    foldl_nil, orSum_zero, mod_mul_mod]
  have single : polynomial (r key) ([message].map blockValue) =
      blockValue message * r key := by
    rw [map_singleton, polynomial, polynomial, length_nil, pow_one, add_zero]
  have bound : blockValue message * r key < 2 ^ 129 * 2 ^ 128 :=
    mul_lt_mul'' (blockValue_lt short) (r_lt)
  rw [single]
  generalize blockValue message * r key = x at bound
  constructor
  · intro same
    -- the two differ by a multiple of the prime, and that is a multiple of `2 ^ 128`
    have dvd : 2 ^ 128 ∣ x - x % prime1305 :=
      (modEq_iff_dvd' (mod_le x _)).mp same.symm
    rw [← div_mul_self_eq_mod_sub_self] at dvd
    have quotient : 2 ^ 128 ∣ x / prime1305 :=
      Coprime.dvd_of_dvd_mul_right (by decide +kernel) dvd
    have small : x / prime1305 < 2 ^ 128 :=
      Nat.div_lt_of_lt_mul (bound.trans (by decide))
    exact (div_eq_zero_iff_lt (by decide)).mp (eq_zero_of_dvd_of_lt quotient small)
  · intro small
    rw [mod_eq_of_lt small]

theorem tagNumber_of_r_eq_zero (zero : r key = 0) : tagNumber key message = 0 := by
  have loop (list : List (List UInt8)) :
      list.foldl (fun acc chunk => orSum acc (blockValue chunk) * r key % 2 ^ 128) 0 = 0 := by
    induction list with
    | nil => rfl
    | cons chunk list ih =>
      simp only [foldl_cons, zero, mul_zero, zero_mod] at ih ⊢
      exact ih
  exact loop _

/-- A point of at least two makes a product of one block too large, and a point that is one lets
the limbs of two blocks run into each other. -/
theorem exists_poly1305Tag_ne (point : r key ≠ 0) :
    ∃ message, poly1305Tag key message ≠ poly1305 key message := by
  rcases lt_or_ge (r key) 2 with small | large
  · have one : r key = 1 := by omega
    refine ⟨replicate 16 255 ++ replicate 16 255, fun right => ?_⟩
    rw [poly1305Tag_eq_iff, tagNumber, residue, one] at right
    revert right
    decide +kernel
  · refine ⟨replicate 16 255, fun right => ?_⟩
    rw [poly1305Tag_eq_iff_of_length_le (by decide),
      show blockValue (replicate 16 255) = 2 ^ 129 - 1 from rfl,
      prime1305] at right
    omega

end ChaCha20

/-! ## Both -/

/-- The example of RFC 8439, section 2.5.2. -/
def exampleKey : Bytes 32 :=
  ⟨[0x85, 0xd6, 0xbe, 0x78, 0x57, 0x55, 0x6d, 0x33, 0x7f, 0x44, 0x52, 0xfe, 0x42, 0xd5, 0x06, 0xa8,
    0x01, 0x03, 0x80, 0x8a, 0xfb, 0x0d, 0xb2, 0xfd, 0x4a, 0xbf, 0xf6, 0xaf, 0x41, 0x49, 0xf5, 0x1b],
    rfl⟩

def exampleMessage : List UInt8 := "Cryptographic Forum Research Group".toUTF8.toList

/-- The key with the point one and nothing to add. -/
def unitKey : Bytes 32 := ⟨1 :: replicate 31 0, rfl⟩

end SmartOs.Crypto
