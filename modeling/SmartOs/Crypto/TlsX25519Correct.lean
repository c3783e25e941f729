/-
# The ladder of the TLS client

No operation of `x25519` of `net/tls.rs` overflows, and its result is that of RFC 7748 modulo the
prime. The result of a product is carried but for its second limb; one sum or difference of such
elements is still small enough for the next product, and every difference takes away a carried
element, so that twice the prime keeps it from getting negative.
-/

import SmartOs.CS.WordLimbs
import SmartOs.Crypto.Rfc7748
import SmartOs.Crypto.TlsX25519
import SmartOs.Math.Limbs

namespace SmartOs.Crypto.Tls

open CS Math Rfc7748 List Nat

variable {u : ZMod prime25519} {k : ℕ} {x1 : Fe}

def base51 : ℕ := 2 ^ 51

theorem base51_pow : base51 ^ 5 = prime25519 + 19 := rfl

/-- The bound after a product. -/
def tight : ℕ := 2 ^ 51 + 2 ^ 16

/-- The bound before a product. -/
def loose : ℕ := 2 ^ 53

/-- The limbs are within the bound, nothing has overflowed on the way to them, and they stand for
an element of the field. -/
def Stands (bound : ℕ) (x : Fe) (v : ZMod prime25519) : Prop :=
  ∃ n, AllUpto x n bound ∧ (n.value base51 : ZMod prime25519) = v

variable {v w : ZMod prime25519} {x y f : Fe} {n : Five ℕ} {bit : Bool}

theorem Stands.mono {b c : ℕ} (stands : Stands b x v) (weaker : b ≤ c) : Stands c x v := by
  obtain ⟨n, limbs, value⟩ := stands
  exact ⟨n, limbs.mono weaker, value⟩

theorem Stands.loose (stands : Stands tight x v) : Stands loose x v := stands.mono (by decide)

/-! ## Sums and differences -/

theorem feAdd_stands (first : Stands tight x v) (second : Stands tight y w) :
    Stands loose (feAdd x y) (v + w) := by
  obtain ⟨m, limbs, rfl⟩ := first
  obtain ⟨n, limbs', rfl⟩ := second
  refine ⟨m.add n, (limbs.add limbs' (by decide)).mono (by decide), ?_⟩
  rw [Five.value_add, cast_add]

theorem feSub_stands (first : Stands tight x v) (second : Stands tight y w) :
    Stands loose (feSub x y) (v - w) := by
  obtain ⟨m, ⟨x0, x1, x2, x3, x4⟩, rfl⟩ := first
  obtain ⟨n, ⟨y0, y1, y2, y3, y4⟩, rfl⟩ := second
  have twoP0 : (2 * p0).Upto (2 ^ 52 - 38) (2 ^ 52 - 38) := ⟨by decide, by decide, le_rfl⟩
  have twoP1 : (2 * p1).Upto (2 ^ 52 - 2) (2 ^ 52 - 2) := ⟨by decide, by decide, le_rfl⟩
  have below {k : ℕ} (le : k ≤ tight) (j : ℕ) : k ≤ j + (2 ^ 52 - 38) :=
    (le.trans (by decide)).trans (le_add_left _ j)
  have below' {k : ℕ} (le : k ≤ tight) (j : ℕ) : k ≤ j + (2 ^ 52 - 2) :=
    (below le j).trans (Nat.add_le_add_left (by decide) j)
  have d0 := (x0.add twoP0 (by decide)).sub y0 (below y0.le _)
  have d1 := (x1.add twoP1 (by decide)).sub y1 (below' y1.le _)
  have d2 := (x2.add twoP1 (by decide)).sub y2 (below' y2.le _)
  have d3 := (x3.add twoP1 (by decide)).sub y3 (below' y3.le _)
  have d4 := (x4.add twoP1 (by decide)).sub y4 (below' y4.le _)
  refine ⟨⟨_, _, _, _, _⟩, ⟨d0.mono (by decide), d1.mono (by decide), d2.mono (by decide),
    d3.mono (by decide), d4.mono (by decide)⟩, eq_sub_of_add_eq ?_⟩
  have total : Five.value base51 ⟨m.l0 + (2 ^ 52 - 38) - n.l0, m.l1 + (2 ^ 52 - 2) - n.l1,
      m.l2 + (2 ^ 52 - 2) - n.l2, m.l3 + (2 ^ 52 - 2) - n.l3, m.l4 + (2 ^ 52 - 2) - n.l4⟩ +
        n.value base51 = m.value base51 + 2 * prime25519 := by
    have b0 := below y0.le m.l0
    have b1 := below' y1.le m.l1
    have b2 := below' y2.le m.l2
    have b3 := below' y3.le m.l3
    have b4 := below' y4.le m.l4
    simp only [Five.value, base51, prime25519]
    omega
  rw [← cast_add, total, cast_add, cast_mul, ZMod.natCast_self, mul_zero, add_zero]

/-! ## Products -/

theorem feProduct_upto {m : Five ℕ} (first : AllUpto x m loose) (second : AllUpto y n loose) :
    AllUpto (feProduct x y) (Five.mulFold 19 m n) (2 ^ 113) := by
  have wide {z : Word 64} {k : ℕ} (limb : z.Upto k loose) : (z.cast 128).Upto k loose :=
    limb.cast (by decide)
  have r19 : (19 : Word 128).Upto 19 19 := .ofNat (by decide)
  obtain ⟨x0, x1, x2, x3, x4⟩ := first
  obtain ⟨y0, y1, y2, y3, y4⟩ := second
  have times {a b : Word 64} {j k : ℕ} (left : a.Upto j loose) (right : b.Upto k loose) :
      (a.cast 128 * b.cast 128).Upto (j * k) (2 ^ 106) :=
    ((wide left).mul (wide right) (by decide)).mono (by decide)
  refine ⟨?_, ?_, ?_, ?_, ?_⟩
  · exact ((times x0 y0).add (r19.mul ((((times x1 y4).add (times x2 y3) (by decide)).add
      (times x3 y2) (by decide)).add (times x4 y1) (by decide)) (by decide)) (by decide)).mono
        (by decide)
  · exact (((times x0 y1).add (times x1 y0) (by decide)).add (r19.mul (((times x2 y4).add
      (times x3 y3) (by decide)).add (times x4 y2) (by decide)) (by decide)) (by decide)).mono
        (by decide)
  · exact ((((times x0 y2).add (times x1 y1) (by decide)).add (times x2 y0) (by decide)).add
      (r19.mul ((times x3 y4).add (times x4 y3) (by decide)) (by decide)) (by decide)).mono
        (by decide)
  · refine (((((times x0 y3).add (times x1 y2) (by decide)).add (times x2 y1) (by decide)).add
      (times x3 y0) (by decide)).add ((r19.mul (wide x4) (by decide)).mul (wide y4) (by decide))
        (by decide)).mono (by decide) |>.congr ?_
    rw [mul_assoc 19]
    rfl
  · exact (((((times x0 y4).add (times x1 y3) (by decide)).add (times x2 y2) (by decide)).add
      (times x3 y1) (by decide)).add (times x4 y0) (by decide)).mono (by decide)

theorem feCarry_upto {t : Five (Word 128)} (limbs : AllUpto t n (2 ^ 113)) :
    AllUpto (feCarry t) (Five.carry base51 19 n) tight := by
  obtain ⟨h0, h1, h2, h3, h4⟩ := limbs
  have mask : (p1.cast 128).Upto (2 ^ 51 - 1) (2 ^ 51 - 1) := ⟨by decide, by decide, le_rfl⟩
  have r19 : (19 : Word 128).Upto 19 19 := .ofNat (by decide)
  have t1 := h1.add (h0.shiftRight 51) (by decide)
  have t2 := h2.add (t1.shiftRight 51) (by decide)
  have t3 := h3.add (t2.shiftRight 51) (by decide)
  have t4 := h4.add (t3.shiftRight 51) (by decide)
  have t0 := (h0.mask mask).add (r19.mul (t4.shiftRight 51) (by decide)) (by decide)
  exact ⟨((t0.mask mask).cast (by decide)).mono (by decide),
    (((t1.mask mask).add (t0.shiftRight 51) (by decide)).cast (by decide)).mono (by decide),
    ((t2.mask mask).cast (by decide)).mono (by decide),
    ((t3.mask mask).cast (by decide)).mono (by decide),
    ((t4.mask mask).cast (by decide)).mono (by decide)⟩

theorem feMul_stands (first : Stands loose x v) (second : Stands loose y w) :
    Stands tight (feMul x y) (v * w) := by
  obtain ⟨m, limbs, rfl⟩ := first
  obtain ⟨n, limbs', rfl⟩ := second
  refine ⟨_, feCarry_upto (feProduct_upto limbs limbs'), ?_⟩
  rw [← cast_mul, ZMod.natCast_eq_natCast_iff]
  exact (Five.value_carry_modEq (by decide) base51_pow _).trans (Five.value_mulFold base51_pow m n)

theorem feSq_stands (stands : Stands loose x v) : Stands tight (feSq x) (v ^ 2) := by
  rw [pow_two]
  exact feMul_stands stands stands

/-! ## The inverse -/

theorem squarings_stands (pos : 0 < k) (stands : Stands loose x v) :
    Stands tight (squarings k x) (v ^ 2 ^ k) := by
  have loop (j : ℕ) : Stands tight (feSq^[j] (feSq x)) (v ^ 2 ^ (j + 1)) := by
    induction j with
    | zero => exact feSq_stands stands
    | succ j ih =>
      rw [Function.iterate_succ_apply', pow_succ 2 (j + 1), pow_mul]
      exact feSq_stands ih.loose
  have last := loop (k - 1)
  rwa [Nat.sub_add_cancel pos] at last

theorem feInvert_stands {z : Fe} (stands : Stands loose z v) :
    Stands tight (feInvert z) (v ^ (prime25519 - 2)) := by
  -- one link of the chain: some squarings, and a product
  have link {x y : Fe} {i j l : ℕ} (k : ℕ) (pos : 0 < k) (first : Stands tight x (v ^ i))
      (second : Stands tight y (v ^ j)) (sum : i * 2 ^ k + j = l) :
      Stands tight (feMul (squarings k x) y) (v ^ l) := by
    rw [← sum, pow_add, pow_mul]
    exact feMul_stands (squarings_stands pos first.loose).loose second.loose
  have z2 := feSq_stands stands
  have z9 : Stands tight (feMul (feSq (feSq (feSq z))) z) (v ^ 9) := by
    rw [show 9 = 2 * 2 * 2 + 1 from rfl, pow_succ, pow_mul, pow_mul]
    exact feMul_stands (feSq_stands (feSq_stands z2.loose).loose).loose stands
  have z11 := feMul_stands z2.loose z9.loose
  rw [← pow_add] at z11
  have z2_5 := link (l := 2 ^ 5 - 1) 1 (by decide) z11 z9 (by decide)
  have z2_10 := link (l := 2 ^ 10 - 1) 5 (by decide) z2_5 z2_5 (by decide)
  have z2_20 := link (l := 2 ^ 20 - 1) 10 (by decide) z2_10 z2_10 (by decide)
  have z2_40 := link (l := 2 ^ 40 - 1) 20 (by decide) z2_20 z2_20 (by decide)
  have z2_50 := link (l := 2 ^ 50 - 1) 10 (by decide) z2_40 z2_10 (by decide)
  have z2_100 := link (l := 2 ^ 100 - 1) 50 (by decide) z2_50 z2_50 (by decide)
  have z2_200 := link (l := 2 ^ 200 - 1) 100 (by decide) z2_100 z2_100 (by decide)
  have z2_250 := link (l := 2 ^ 250 - 1) 50 (by decide) z2_200 z2_50 (by decide)
  exact link (l := prime25519 - 2) 5 (by decide) z2_250 z11 (by decide)

/-! ## Bytes in -/

theorem loadLoop_upto (b : Bytes 32) (i : ℕ) (inside : k ≤ 8) : ((range k).foldl (fun v j =>
      if i + j < 32 then v ||| Word.ofNat 64 (b.val.getD (i + j) 0).toNat <<< (8 * j)
      else v) (0 : Word 64)).Upto (ofLeBytes b.val / 2 ^ (8 * i) % 2 ^ (8 * k))
        (2 ^ (8 * k) - 1) := by
  have bound : ofLeBytes b.val < 2 ^ (8 * 32) := by
    have := ofLeBytes_lt b.val
    rwa [b.property] at this
  induction k with
  | zero =>
    rw [pow_zero, mod_one]
    exact .ofNat (by decide)
  | succ k ih =>
    have sofar := ih (by omega)
    rw [range_succ, foldl_append, foldl_cons]
    have next : 2 ^ (8 * (k + 1)) = 2 ^ (8 * k) * 256 := pow_add 2 (8 * k) 8
    split
    · next present =>
      have byte : (Word.ofNat 64 (b.val.getD (i + k) 0).toNat).Upto
          (ofLeBytes b.val / 2 ^ (8 * i) / 2 ^ (8 * k) % 256) 255 := by
        have small := (b.val.getD (i + k) 0).toNat_lt
        refine ((Word.Upto.ofNat (by omega)).congr ?_).tighten (by omega)
        rw [toNat_getD, Nat.div_div_eq_div_mul, ← pow_add, ← mul_add, pow_mul,
          show 2 ^ 8 = 256 from rfl]
      have low : 2 ^ (8 * k) - 1 < 2 ^ (8 * k) := Nat.sub_one_lt (Nat.two_pow_pos _).ne'
      have room : 255 * 2 ^ (8 * k) < 2 ^ 64 := by
        have : 2 ^ (8 * k) ≤ 2 ^ 56 := Nat.pow_le_pow_right (by decide) (by omega)
        omega
      refine ((sofar.orShift byte low room).congr ?_).mono (by omega)
      rw [next, mod_mul, mul_comm (2 ^ (8 * k))]
    · next absent =>
      refine (sofar.congr ?_).mono (by omega)
      have small : ofLeBytes b.val / 2 ^ (8 * i) < 2 ^ (8 * k) := by
        rw [Nat.div_lt_iff_lt_mul (Nat.two_pow_pos _), ← pow_add]
        exact bound.trans_le (Nat.pow_le_pow_right (by decide) (by omega))
      rw [mod_eq_of_lt small, mod_eq_of_lt (by omega)]

theorem loadBits_upto (b : Bytes 32) (start : ℕ) :
    (loadBits b start 51).Upto (ofLeBytes b.val / 2 ^ start % 2 ^ 51) (2 ^ 51 - 1) := by
  have mask : ((1 : Word 64) <<< 51 - 1).Upto (2 ^ 51 - 1) (2 ^ 51 - 1) :=
    ⟨by decide, by decide, le_rfl⟩
  refine (((loadLoop_upto b (start / 8) le_rfl).shiftRight (start % 8)).mask mask).congr ?_
  have cut : 2 ^ (8 * 8) = 2 ^ (start % 8) * 2 ^ (64 - start % 8) := by
    rw [← pow_add, add_sub_of_le (by omega)]
  rw [cut, mod_mul_right_div_self, Nat.div_div_eq_div_mul, ← pow_add, div_add_mod]
  exact mod_mod_of_dvd _ (pow_dvd_pow 2 (by omega))

theorem feFromBytes_upto (b : Bytes 32) :
    AllUpto (feFromBytes b) (Five.digits base51 (ofLeBytes b.val)) (2 ^ 51 - 1) := by
  have first := loadBits_upto b 0
  rw [pow_zero, Nat.div_one] at first
  exact ⟨first, loadBits_upto b 51, loadBits_upto b 102, loadBits_upto b 153, loadBits_upto b 204⟩

theorem feFromBytes_stands (u : Bytes 32) : Stands tight (feFromBytes u) (decodeUCoordinate u) := by
  refine ⟨_, (feFromBytes_upto u).mono (by decide), ?_⟩
  rw [Five.value_digits]
  rfl

/-! ## The scalar -/

theorem ofLeBytes_set (bytes : List UInt8) {i : ℕ} (inside : i < bytes.length) (byte : UInt8) :
    ofLeBytes (bytes.set i byte) + 256 ^ i * (bytes.getD i 0).toNat =
      ofLeBytes bytes + 256 ^ i * byte.toNat := by
  induction bytes generalizing i with
  | nil => cases inside
  | cons head bytes ih =>
    cases i with
    | zero =>
      simp only [set_cons_zero, ofLeBytes_cons, getD_cons_zero]
      omega
    | succ i =>
      have tail := ih (lt_of_succ_lt_succ inside)
      simp only [set_cons_succ, ofLeBytes_cons, getD_cons_succ, pow_succ', mul_assoc]
      omega

theorem ofLeBytes_clamp (k : Bytes 32) : ofLeBytes (clamp k) = decodeScalar k := by
  have length := k.property
  have bound := ofLeBytes_lt k.val
  rw [length] at bound
  -- the two bytes that are changed, before and after
  have low (b : UInt8) : (b &&& 248).toNat = b.toNat / 8 * 8 := by
    have all : ∀ n < 256, n &&& 248 = n / 8 * 8 := by decide +kernel
    exact all b.toNat b.toNat_lt
  have high (b : UInt8) : (b &&& 127 ||| 64).toNat = b.toNat % 64 + 64 := by
    have all : ∀ n < 256, n &&& 127 ||| 64 = n % 64 + 64 := by decide +kernel
    exact all b.toNat b.toNat_lt
  have first := toNat_getD k.val 0
  have last := toNat_getD k.val 31
  have set0 := ofLeBytes_set k.val (i := 0) (by omega) (k.val.getD 0 0 &&& 248)
  have set31 := ofLeBytes_set (k.val.set 0 (k.val.getD 0 0 &&& 248)) (i := 31)
    (by rw [length_set]; omega) (k.val.getD 31 0 &&& 127 ||| 64)
  have same : (k.val.set 0 (k.val.getD 0 0 &&& 248)).getD 31 0 = k.val.getD 31 0 := by
    simp
  have clamped : clamp k = (k.val.set 0 (k.val.getD 0 0 &&& 248)).set 31
      (k.val.getD 31 0 &&& 127 ||| 64) := by
    simp [clamp, length]
  rw [clamped, decodeScalar]
  rw [same, high] at set31
  rw [low] at set0
  omega

theorem kBit_upto (bytes : List UInt8) (i : ℕ) :
    (kBit bytes i).Upto ((ofLeBytes bytes).testBit i).toNat 1 := by
  have rest : i % 8 < 8 := mod_lt _ (by decide)
  have shift : (UInt8.ofNat (i % 8)).toNat % 8 = i % 8 := by
    rw [UInt8.toNat_ofNat', mod_eq_of_lt (rest.trans (by decide)), mod_mod]
  have cut : 256 = 2 ^ (i % 8) * 2 ^ (8 - i % 8) := by
    rw [← pow_add, add_sub_of_le rest.le]
    rfl
  have bit : ((bytes.getD (i / 8) 0 >>> UInt8.ofNat (i % 8)) &&& 1).toNat =
      ((ofLeBytes bytes).testBit i).toNat := by
    rw [UInt8.toNat_and, UInt8.toNat_shiftRight, shift, shiftRight_eq_div_pow, show (1 :
      UInt8).toNat = 2 ^ 1 - 1 from rfl, and_two_pow_sub_one_eq_mod, toNat_getD, toNat_testBit]
    nth_rewrite 2 [cut]
    rw [mod_mul_right_div_self, mod_mod_of_dvd _ (pow_dvd_pow 2 (by omega)),
      show 256 = 2 ^ 8 from rfl, ← pow_mul, Nat.div_div_eq_div_mul, ← pow_add, div_add_mod,
      pow_one]
  refine ((Word.Upto.ofNat ?_).congr bit).tighten (Bool.toNat_le _)
  rw [bit]
  exact (Bool.toNat_le _).trans_lt (by decide)

/-! ## The ladder -/

section

variable {swap a b : Word 64} {m n c : ℕ} (chosen : swap.Upto bit.toNat 1) (first : a.Upto m c)
  (second : b.Upto n c)
include chosen first second

/-- The first word of the two; the second is the first of the words exchanged. -/
theorem cswapLimb_fst_upto : (cswapLimb swap a b).1.Upto (if bit then n else m) c := by
  obtain ⟨fits, value, -⟩ := chosen
  obtain ⟨fits', rfl, first⟩ := first
  obtain ⟨fits'', rfl, second⟩ := second
  have bits : swap.bits = BitVec.ofNat 64 bit.toNat := by
    rw [← value, Word.value, BitVec.ofNat_toNat, BitVec.setWidth_eq]
  have mask : (Word.wrappingSub 0 swap).bits = if bit then BitVec.allOnes 64 else 0#64 := by
    change 0#64 - swap.bits = _
    rw [bits]
    cases bit <;> decide
  refine ⟨?_, ?_, ?_⟩
  · change (a.fits && (true && swap.fits && (a.fits && b.fits)))
    rw [fits, fits', fits'']
    rfl
  · change (a.bits ^^^ ((Word.wrappingSub 0 swap).bits &&& (a.bits ^^^ b.bits))).toNat = _
    rw [mask]
    cases bit with
    | false => simp [Word.value]
    | true =>
      rw [if_pos rfl, BitVec.allOnes_and, ← BitVec.xor_assoc, BitVec.xor_self, BitVec.zero_xor]
      rfl
  · split <;> assumption

theorem cswapLimb_upto : (cswapLimb swap a b).1.Upto (if bit then n else m) c ∧
    (cswapLimb swap a b).2.Upto (if bit then m else n) c := by
  have comm : a ^^^ b = b ^^^ a := congrArg₂ Word.mk (BitVec.xor_comm ..) (Bool.and_comm ..)
  have exchanged : (cswapLimb swap a b).2 = (cswapLimb swap b a).1 := by
    rw [cswapLimb, cswapLimb, comm]
  rw [exchanged]
  exact ⟨cswapLimb_fst_upto chosen first second, cswapLimb_fst_upto chosen second first⟩

end

theorem cswap_stands {swap : Word 64} (chosen : swap.Upto bit.toNat 1) (first : Stands tight x v)
    (second : Stands tight y w) : Stands tight (cswap swap x y).1 (Rfc7748.cswap bit v w).1 ∧
      Stands tight (cswap swap x y).2 (Rfc7748.cswap bit v w).2 := by
  obtain ⟨m, ⟨x0, x1, x2, x3, x4⟩, rfl⟩ := first
  obtain ⟨n, ⟨y0, y1, y2, y3, y4⟩, rfl⟩ := second
  have c0 := cswapLimb_upto chosen x0 y0
  have c1 := cswapLimb_upto chosen x1 y1
  have c2 := cswapLimb_upto chosen x2 y2
  have c3 := cswapLimb_upto chosen x3 y3
  have c4 := cswapLimb_upto chosen x4 y4
  cases bit with
  | false =>
    exact ⟨⟨m, ⟨c0.1, c1.1, c2.1, c3.1, c4.1⟩, rfl⟩, n, ⟨c0.2, c1.2, c2.2, c3.2, c4.2⟩, rfl⟩
  | true =>
    exact ⟨⟨n, ⟨c0.1, c1.1, c2.1, c3.1, c4.1⟩, rfl⟩, m, ⟨c0.2, c1.2, c2.2, c3.2, c4.2⟩, rfl⟩

theorem ofNat_stands {n : ℕ} (small : n ≤ tight) :
    Stands tight ⟨.ofNat 64 n, 0, 0, 0, 0⟩ (n : ZMod prime25519) := by
  have zero : (0 : Word 64).Upto 0 tight := (Word.Upto.ofNat (by decide)).mono (by decide)
  refine ⟨⟨n, 0, 0, 0, 0⟩, ⟨(Word.Upto.ofNat (small.trans_lt (by decide))).mono small, zero, zero,
    zero, zero⟩, ?_⟩
  simp [Five.value]

/-- The variables of the code stand for those of the definition. -/
structure Simulates (s : Ladder) (t : State (ZMod prime25519)) : Prop where
  x2 : Stands tight s.x2 t.x2
  z2 : Stands tight s.z2 t.z2
  x3 : Stands tight s.x3 t.x3
  z3 : Stands tight s.z3 t.z3
  swap : s.swap.Upto t.swap.toNat 1

theorem simulates_step {s : Ladder} {t : State (ZMod prime25519)}
    {kBit : Word 64} (point : Stands tight x1 u) (simulates : Simulates s t)
    (chosen : kBit.Upto bit.toNat 1) : Simulates (ladderStep x1 s kBit) (step u t bit) := by
  have swap : (s.swap ^^^ kBit).Upto (t.swap ^^ bit).toNat 1 := by
    refine ((simulates.swap.xor chosen).congr ?_).tighten (Bool.toNat_le _)
    cases t.swap <;> cases bit <;> rfl
  obtain ⟨x2, x3⟩ := cswap_stands swap simulates.x2 simulates.x3
  obtain ⟨z2, z3⟩ := cswap_stands swap simulates.z2 simulates.z3
  have constant : Stands tight ⟨121665, 0, 0, 0, 0⟩ a24 := ofNat_stands (by decide)
  have a := feAdd_stands x2 z2
  have aa := feSq_stands a
  have b := feSub_stands x2 z2
  have bb := feSq_stands b
  have e := feSub_stands aa bb
  have c := feAdd_stands x3 z3
  have d := feSub_stands x3 z3
  have da := feMul_stands d a
  have cb := feMul_stands c b
  exact
    { x3 := feSq_stands (feAdd_stands da cb)
      z3 := feMul_stands point.loose (feSq_stands (feSub_stands da cb)).loose
      x2 := feMul_stands aa.loose bb.loose
      z2 := feMul_stands e (feAdd_stands aa (feMul_stands constant.loose e))
      swap := chosen }

theorem simulates_ladder (k : Bytes 32)
    (point : Stands tight x1 u) :
    Simulates (ladder (clamp k) x1) (Rfc7748.ladder (decodeScalar k) u) := by
  have loop (list : List ℕ) {s : Ladder} {t : State (ZMod prime25519)}
      (simulates : Simulates s t) :
      Simulates (list.foldl (fun s i => ladderStep x1 s (kBit (clamp k) i)) s)
        (list.foldl (fun t i => step u t ((decodeScalar k).testBit i)) t) := by
    induction list generalizing s t with
    | nil => exact simulates
    | cons i list ih =>
      have chosen := kBit_upto (clamp k) i
      rw [ofLeBytes_clamp] at chosen
      exact ih (simulates_step point simulates chosen)
  have zero : Stands tight ⟨0, 0, 0, 0, 0⟩ 0 := by
    have stands := ofNat_stands (n := 0) (by decide)
    rwa [cast_zero] at stands
  have one : Stands tight ⟨1, 0, 0, 0, 0⟩ 1 := by
    have stands := ofNat_stands (n := 1) (by decide)
    rwa [cast_one] at stands
  exact loop _ ⟨one, zero, point, one, (Word.Upto.ofNat (by decide)).mono (by decide)⟩

/-! ## Bytes out -/

theorem carryPass_upto (limbs : AllUpto f n (2 ^ 60)) :
    AllUpto (carryPass f).1 (Five.digits base51 (n.value base51)) (2 ^ 51 - 1) ∧
      (carryPass f).2.Upto (n.value base51 / base51 ^ 5) (2 ^ 10) := by
  obtain ⟨h0, h1, h2, h3, h4⟩ := limbs
  have mask : p1.Upto (2 ^ 51 - 1) (2 ^ 51 - 1) := .ofNat (by decide)
  have f1 := h1.add (h0.shiftRight 51) (by decide)
  have f2 := h2.add (f1.shiftRight 51) (by decide)
  have f3 := h3.add (f2.shiftRight 51) (by decide)
  have f4 := h4.add (f3.shiftRight 51) (by decide)
  obtain ⟨low, top⟩ := Five.ripple (B := base51) (by decide) n rfl rfl rfl rfl
  rw [low, top]
  exact ⟨⟨h0.mask mask, f1.mask mask, f2.mask mask, f3.mask mask, f4.mask mask⟩,
    (f4.shiftRight 51).mono (by decide)⟩

/-- The carries at the end: a multiple of the prime may be left, but nothing is lost. -/
theorem feReduce_upto (limbs : AllUpto f n tight) :
    ∃ r, AllUpto (feReduce f) (Five.digits base51 r) (2 ^ 51 - 1) ∧ r < 2 ^ 255 ∧
      r ≡ n.value base51 [MOD prime25519] := by
  obtain ⟨⟨d0, d1, d2, d3, d4⟩, carry⟩ := carryPass_upto (limbs.mono (by decide))
  have r19 : (19 : Word 64).Upto 19 19 := .ofNat (by decide)
  have fold := d0.add (r19.mul carry (by decide)) (by decide)
  let d := Five.digits base51 (n.value base51)
  let m : Five ℕ := ⟨d.l0 + 19 * (n.value base51 / base51 ^ 5), d.l1, d.l2, d.l3, d.l4⟩
  have second : AllUpto { (carryPass f).1 with l0 := (carryPass f).1.l0 + 19 * (carryPass f).2 } m
      (2 ^ 60) :=
    ⟨fold.mono (by decide), d1.mono (by decide), d2.mono (by decide), d3.mono (by decide),
      d4.mono (by decide)⟩
  have value : m.value base51 =
      n.value base51 % base51 ^ 5 + 19 * (n.value base51 / base51 ^ 5) := by
    rw [← Five.value_digits]
    simp only [Five.value, m, d]
    omega
  refine ⟨m.value base51, (carryPass_upto second).1, ?_, ?_⟩
  · -- a carry out of the top leaves next to nothing in the limbs
    have b0 := limbs.l0.le
    have b1 := limbs.l1.le
    have b2 := limbs.l2.le
    have b3 := limbs.l3.le
    have b4 := limbs.l4.le
    rw [value, Five.value]
    simp only [base51, tight] at *
    omega
  · rw [value]
    exact Five.fold_modEq base51_pow _

theorem fePack_eq {r : ℕ} (limbs : AllUpto f (Five.digits base51 r) (2 ^ 51 - 1))
    (small : r < 2 ^ 255) : (∀ byte ∈ fePack f, byte.fits) ∧ leValue (fePack f) = r := by
  obtain ⟨h0, h1, h2, h3, h4⟩ := limbs
  have wide {z : Word 64} {k : ℕ} (limb : z.Upto k (2 ^ 51 - 1)) :
      (z.cast 128).Upto k (2 ^ 51 - 1) := limb.cast (by decide)
  have lo := ((wide h0).orShift (wide h1) (k := 51) (by decide) (by decide)).orShift_mod (wide h2)
    (k := 102) (by decide) (by decide)
  have hi := (((wide h2).shiftRight 26).orShift (wide h3) (k := 25) (by decide)
    (by decide)).orShift (wide h4) (k := 76) (by decide) (by decide)
  have lo' := lo.congr (m := r % 2 ^ 128) (by simp only [Five.digits, base51]; omega)
  have hi' := hi.congr (m := r / 2 ^ 128) (by simp only [Five.digits, base51]; omega)
  have byte {x : Word 128} {k b : ℕ} (upto : x.Upto k b) (i : ℕ) :
      ((x >>> (8 * i)).cast 8).fits ∧
        ((x >>> (8 * i)).cast 8).value = k / 256 ^ i % 256 := by
    refine ⟨upto.fits, ?_⟩
    rw [(upto.shiftRight (8 * i)).value_cast, pow_mul]
    rfl
  constructor
  · intro b mem
    rw [fePack, mem_append, mem_append, mem_singleton] at mem
    rcases mem with mem | mem | rfl
    · obtain ⟨i, -, rfl⟩ := mem_map.mp mem
      exact (byte lo' i).1
    · obtain ⟨i, -, rfl⟩ := mem_map.mp mem
      exact (byte hi' i).1
    · exact (byte hi' 15).1
  · have values : (fePack f).map Word.value =
        (range 16).map (fun i => r % 2 ^ 128 / 256 ^ i % 256) ++
          (range 16).map (fun i => r / 2 ^ 128 / 256 ^ i % 256) := by
      have part {x : Word 128} {k b : ℕ} (upto : x.Upto k b) (j : ℕ) :
          ((range j).map fun i => (x >>> (8 * i)).cast 8).map Word.value =
            (range j).map fun i => k / 256 ^ i % 256 := by
        rw [map_map]
        exact map_congr_left fun i _ => (byte upto i).2
      rw [fePack, map_append, map_append, part lo', part hi']
      exact congrArg (fun b => _ ++ (_ ++ [b])) (byte hi' 15).2
    rw [leValue, values, ofDigits_append, Limbs.ofDigits_range, Limbs.ofDigits_range, length_map,
      length_range]
    omega

/-! ## The whole function -/

theorem x25519_spec (k u : Bytes 32) : (∀ byte ∈ x25519 k u, byte.fits) ∧
    leValue (x25519 k u) < 2 ^ 255 ∧
    (leValue (x25519 k u) : ZMod prime25519) = Rfc7748.x25519 k u := by
  obtain ⟨x2, z2, x3, z3, swap⟩ := simulates_ladder k (feFromBytes_stands u)
  obtain ⟨x, -⟩ := cswap_stands swap x2 x3
  obtain ⟨z, -⟩ := cswap_stands swap z2 z3
  obtain ⟨n, limbs, value⟩ := feMul_stands x.loose (feInvert_stands z.loose).loose
  obtain ⟨r, reduced, small, congruent⟩ := feReduce_upto limbs
  obtain ⟨fits, bytes⟩ := fePack_eq reduced small
  rw [x25519, feToBytes, Rfc7748.x25519]
  refine ⟨fits, bytes.trans_lt small, ?_⟩
  rw [bytes, ← value]
  exact (ZMod.natCast_eq_natCast_iff _ _ _).mpr congruent

/-- For every scalar and point no operation overflows, and the result is the one of the definition
modulo the prime. The inverse is the power `p - 2` of every element within the bound of the
ladder's sums and differences. -/
theorem x25519_meets_definition : (∀ k u : Bytes 32, (∀ byte ∈ x25519 k u, byte.fits) ∧
      (leValue (x25519 k u) : ZMod prime25519) = Rfc7748.x25519 k u) ∧
    ∀ (z : Fe) (v : ZMod prime25519), Stands loose z v →
      Stands tight (feInvert z) (v ^ (prime25519 - 2)) :=
  ⟨fun k u => ⟨(x25519_spec k u).1, (x25519_spec k u).2.2⟩, fun _ _ => feInvert_stands⟩

/-- The inverse of two, with the hypothesis on the limbs met. -/
theorem x25519_meets_definition_two : Stands loose ⟨2, 0, 0, 0, 0⟩ 2 ∧
      Stands tight (feInvert ⟨2, 0, 0, 0, 0⟩) (2 ^ (prime25519 - 2)) := by
  have two : Stands loose ⟨2, 0, 0, 0, 0⟩ 2 := by
    have stands := (ofNat_stands (n := 2) (by decide)).loose
    rwa [cast_ofNat] at stands
  exact ⟨two, x25519_meets_definition.2 _ _ two⟩

/-- The number that is returned is below the prime, and zero bytes stand for zero. -/
def Canonical (k u : Bytes 32) : Prop :=
  leValue (x25519 k u) < prime25519 ∧
    (Rfc7748.x25519 k u = 0 → ∀ byte ∈ x25519 k u, byte.value = 0)

/-- Only for one of the 19 smallest results there is a second number below `2 ^ 255`. -/
theorem canonical_or_small (k u : Bytes 32) : Canonical k u ∨ (Rfc7748.x25519 k u).val < 19 := by
  obtain ⟨-, high, value⟩ := x25519_spec k u
  rw [or_iff_not_imp_right, not_lt, Canonical, ← value, ZMod.val_natCast]
  intro large
  have below : leValue (x25519 k u) < prime25519 := by
    by_contra above
    rw [mod_eq_sub_mod (not_lt.mp above), mod_eq_of_lt] at large <;>
      rw [prime25519] at * <;> omega
  refine ⟨below, fun zero => ?_⟩
  rw [ZMod.natCast_eq_zero_iff, dvd_iff_mod_eq_zero] at zero
  omega

/-- The result for the point of order two is zero, and the prime is returned for it. -/
theorem not_canonical_zero : ¬ Canonical ⟨replicate 32 0, rfl⟩ ⟨replicate 32 0, rfl⟩ := by
  have above : ¬ leValue (x25519 ⟨replicate 32 0, rfl⟩ ⟨replicate 32 0, rfl⟩) < prime25519 := by
    decide +kernel
  exact fun canonical => above canonical.1

end SmartOs.Crypto.Tls
