/-
# Big integers

The fixed-size integers of `crypto/bigint.rs`, up to modular exponentiation. A `BigInt` of the
source is an array of 64 limbs with the number `n` of active ones; the limbs after them are
zero. Here it is the list of its active limbs, in normal form, so `n` is its length. Every
operation is one of the algorithms on limbs, and has a theorem about the values.
-/

import Mathlib.FieldTheory.Finite.Basic
import SmartOs.Math.BigEndian
import SmartOs.Math.Limbs

namespace SmartOs.Crypto

open Math Limbs List

def maxLimbs : ℕ := 64

structure BigInt where
  limbs : List ℕ
  ne_nil : limbs ≠ []
  length_le : limbs.length ≤ maxLimbs
  below : AreLimbs (2 ^ 64) limbs
  normalized : limbs.length = 1 ∨ limbs.getLast? ≠ some 0

namespace BigInt

/-- The number of active limbs. -/
def n (a : BigInt) : ℕ := a.limbs.length

/-- The number a big integer stands for. -/
def value (a : BigInt) : ℕ := Nat.ofDigits (2 ^ 64) a.limbs

/-- The end of most operations: `normalize`. -/
def ofLimbs (limbs : List ℕ) (length_le : limbs.length ≤ maxLimbs)
    (below : AreLimbs (2 ^ 64) limbs) : BigInt where
  limbs := normalize limbs
  ne_nil := normalize_ne_nil limbs
  length_le := (length_normalize_le limbs).trans (Nat.max_le.mpr ⟨length_le, by decide⟩)
  below := areLimbs_normalize (by decide) below
  normalized := getLast_normalize limbs

variable (limbs : List ℕ)

@[simp] theorem value_ofLimbs (length_le : limbs.length ≤ maxLimbs)
    (below : AreLimbs (2 ^ 64) limbs) :
    (ofLimbs limbs length_le below).value = Nat.ofDigits (2 ^ 64) limbs :=
  ofDigits_normalize limbs

theorem value_lt_n (a : BigInt) : a.value < 2 ^ (64 * a.n) := by
  rw [pow_mul]
  exact Nat.ofDigits_lt_base_pow_length (by decide) a.below

theorem value_lt (a : BigInt) : a.value < 2 ^ (64 * maxLimbs) :=
  lt_of_lt_of_le a.value_lt_n (Nat.pow_le_pow_right (by decide)
    (Nat.mul_le_mul_left 64 a.length_le))

variable {a b m base exp : BigInt} {bytes : List UInt8} {i k : ℕ}

theorem n_le (pos : 0 < k) (small : a.value < 2 ^ (64 * k)) : a.n ≤ k := by
  rcases a.normalized with one | ne
  · rw [n, one]
    exact pos
  obtain ⟨top, last⟩ : ∃ top, a.limbs.getLast? = some top :=
    ⟨_, getLast?_eq_some_getLast a.ne_nil⟩
  have least := @le_ofDigits (2 ^ 64) _ _ last (by rintro rfl; exact ne last)
  rw [← pow_mul] at least
  have exponents := (Nat.pow_lt_pow_iff_right (by decide)).mp (lt_of_le_of_lt least small)
  rw [n]
  omega

def zero : BigInt := ofLimbs [] (by decide) (by simp [AreLimbs])

@[simp] theorem value_zero : zero.value = 0 := value_ofLimbs _ _ _

def fromU64 (v : UInt64) : BigInt :=
  ofLimbs [v.toNat] (Nat.le_of_ble_eq_true rfl) (by simpa [AreLimbs] using v.toNat_lt)

@[simp] theorem value_fromU64 (v : UInt64) : (fromU64 v).value = v.toNat := by
  simp [fromU64]

/-! ## Bytes -/

theorem or_shift_byte (u : ℕ) (byte : UInt8) (k : ℕ) :
    u * 256 ^ (k + 1) ||| byte.toNat <<< (8 * k) = (u * 256 + byte.toNat) * 256 ^ k := by
  have bytePow (k : ℕ) : 256 ^ k = 2 ^ (8 * k) := by
    rw [pow_mul]
    rfl
  have small : byte.toNat <<< (8 * k) < 2 ^ (8 * (k + 1)) := by
    rw [Nat.shiftLeft_eq, ← bytePow, ← bytePow, mul_comm]
    exact Nat.mul_lt_mul_of_pos_left byte.toNat_lt (Nat.pow_pos (by decide))
  rw [bytePow (k + 1), ← Nat.shiftLeft_eq, ← Nat.shiftLeft_add_eq_or_of_lt small,
    Nat.shiftLeft_eq, Nat.shiftLeft_eq, ← bytePow, ← bytePow]
  ring

/-- The inner loop of `from_be_bytes`: the bytes of a limb. -/
def chunkValue (chunk : List UInt8) : ℕ :=
  chunk.zipIdx.foldl (fun val (byte, k) => val ||| byte.toNat <<< ((chunk.length - 1 - k) * 8)) 0

theorem chunkValue_eq (chunk : List UInt8) : chunkValue chunk = ofBeBytes chunk := by
  -- what is left of the chunk, with the value `u` of the bytes before it
  have rest (bytes : List UInt8) (k u : ℕ) (total : k + bytes.length = chunk.length) :
      (bytes.zipIdx k).foldl
          (fun val (byte, k) => val ||| byte.toNat <<< ((chunk.length - 1 - k) * 8))
          (u * 256 ^ bytes.length) =
        u * 256 ^ bytes.length + ofBeBytes bytes := by
    induction bytes generalizing k u with
    | nil => simp
    | cons byte bytes ih =>
      have place : (chunk.length - 1 - k) * 8 = 8 * bytes.length := by
        rw [length_cons] at total
        omega
      rw [zipIdx_cons, foldl_cons, length_cons]
      simp only [place]
      rw [or_shift_byte, ih (k + 1) _ (by rw [← total, length_cons]; omega), ofBeBytes_cons]
      ring
  have whole := rest chunk 0 0 (by omega)
  rwa [zero_mul, zero_add] at whole

/-- The limb at index `i`, counted from the end of the bytes. -/
def limbAt (bytes : List UInt8) (i : ℕ) : ℕ :=
  chunkValue ((bytes.take (bytes.length - i * 8)).drop (bytes.length - (i + 1) * 8))

theorem limbAt_eq (inside : i * 8 ≤ bytes.length) :
    limbAt bytes i = ofBeBytes bytes / (2 ^ 64) ^ i % 2 ^ 64 := by
  have length : (bytes.take (bytes.length - i * 8)).length = bytes.length - i * 8 := by
    rw [length_take]
    omega
  have start : bytes.length - (i + 1) * 8 = (bytes.take (bytes.length - i * 8)).length - 8 := by
    omega
  have place : (2 ^ 64) ^ i = 256 ^ (i * 8) := by
    rw [mul_comm, pow_mul]
    rfl
  rw [limbAt, chunkValue_eq, start, ofBeBytes_drop, ofBeBytes_take inside, place]
  rfl

theorem limbAt_lt (inside : i * 8 ≤ bytes.length) : limbAt bytes i < 2 ^ 64 := by
  rw [limbAt_eq inside]
  exact Nat.mod_lt _ (by decide)

/-- The limbs of `from_be_bytes`. Bytes beyond the 64 lowest limbs are dropped. -/
def limbsOfBytes (bytes : List UInt8) : List ℕ :=
  (range (min ((bytes.length + 7) / 8) maxLimbs)).map (limbAt bytes)

theorem inside_of_mem_range (mem : i ∈ range (min ((bytes.length + 7) / 8) maxLimbs)) :
    i * 8 ≤ bytes.length := by
  rw [mem_range] at mem
  omega

theorem areLimbs_limbsOfBytes : AreLimbs (2 ^ 64) (limbsOfBytes bytes) := by
  intro limb mem
  obtain ⟨i, inside, rfl⟩ := mem_map.mp mem
  exact limbAt_lt (inside_of_mem_range inside)

def fromBeBytes (bytes : List UInt8) : BigInt :=
  ofLimbs (limbsOfBytes bytes) (by simp [limbsOfBytes]) (areLimbs_limbsOfBytes)

/-- Numbers of more than 4096 bits are cut off. -/
theorem value_fromBeBytes (bytes : List UInt8) :
    (fromBeBytes bytes).value = ofBeBytes bytes % 2 ^ (64 * maxLimbs) := by
  have digits : limbsOfBytes bytes = (range (min ((bytes.length + 7) / 8) maxLimbs)).map
      fun i => ofBeBytes bytes / (2 ^ 64) ^ i % 2 ^ 64 := by
    apply map_congr_left
    intro i mem
    exact limbAt_eq (inside_of_mem_range mem)
  have small := ofBeBytes_lt bytes
  rw [fromBeBytes, value_ofLimbs, digits, ofDigits_range, ← pow_mul]
  by_cases few : (bytes.length + 7) / 8 ≤ maxLimbs
  · have bound : 256 ^ bytes.length ≤ 2 ^ (64 * ((bytes.length + 7) / 8)) := by
      rw [show 256 = 2 ^ 8 from rfl, ← pow_mul]
      exact Nat.pow_le_pow_right (by decide) (by omega)
    have bound' : 2 ^ (64 * ((bytes.length + 7) / 8)) ≤ 2 ^ (64 * maxLimbs) :=
      Nat.pow_le_pow_right (by decide) (Nat.mul_le_mul_left 64 few)
    rw [min_eq_left few, Nat.mod_eq_of_lt (lt_of_lt_of_le small bound),
      Nat.mod_eq_of_lt (lt_of_lt_of_le small (bound.trans bound'))]
  · rw [min_eq_right (by omega)]

/-- The inner loop of `to_be_bytes`: the bytes of limb `i`, each written to its place. A place
before the first byte is the first byte. -/
def writeLimb (len v i : ℕ) (out : List UInt8) : List UInt8 :=
  (range 8).foldl
    (fun out k => out.set (len - (i * 8 + k + 1)) (UInt8.ofNat (v >>> (k * 8)))) out

def toBeBytes (a : BigInt) (len : ℕ) : List UInt8 :=
  a.limbs.zipIdx.foldl (fun out (v, i) => writeLimb len v i out) (replicate len 0)

theorem set_replicate_append (m : ℕ) (byte : UInt8) (done : List UInt8) :
    (replicate (m + 1) 0 ++ done).set m byte = replicate m 0 ++ byte :: done := by
  rw [replicate_succ']
  simp

/-- With room for it a limb goes in front of the bytes written before. -/
theorem writeLimb_eq (m v i : ℕ) (done : List UInt8) :
    writeLimb (m + 8 + i * 8) v i (replicate (m + 8) 0 ++ done) =
      replicate m 0 ++ (beBytesOn 8 v ++ done) := by
  -- the place of byte `k` is the last one that is still zero
  have step (k room : ℕ) (done : List UInt8) (place : room + 1 + k = m + 8) :
      (replicate (room + 1) 0 ++ done).set (m + 8 + i * 8 - (i * 8 + k + 1))
          (UInt8.ofNat (v >>> (k * 8))) =
        replicate room 0 ++ UInt8.ofNat (v / 256 ^ k) :: done := by
    have shift : v >>> (k * 8) = v / 256 ^ k := by
      rw [Nat.shiftRight_eq_div_pow, mul_comm, pow_mul]
      rfl
    rw [show m + 8 + i * 8 - (i * 8 + k + 1) = room by omega, set_replicate_append, shift]
  have eight : range 8 = [0, 1, 2, 3, 4, 5, 6, 7] := rfl
  simp only [writeLimb, eight, foldl_cons]
  rw [step 0 (m + 7) _ (by omega), step 1 (m + 6) _ (by omega), step 2 (m + 5) _ (by omega),
    step 3 (m + 4) _ (by omega), step 4 (m + 3) _ (by omega), step 5 (m + 2) _ (by omega),
    step 6 (m + 1) _ (by omega), step 7 m _ (by omega)]
  simp [beBytesOn, toLeBytes, Nat.div_div_eq_div_mul]

/-- The bytes of a list of limbs, the last limb first. -/
def bytesOfLimbs : List ℕ → List UInt8
  | [] => []
  | v :: limbs => bytesOfLimbs limbs ++ beBytesOn 8 v

theorem length_bytesOfLimbs : (bytesOfLimbs limbs).length = limbs.length * 8 := by
  induction limbs with
  | nil => rfl
  | cons v limbs ih =>
    rw [bytesOfLimbs, length_append, ih, length_beBytesOn, length_cons]
    ring

theorem ofBeBytes_bytesOfLimbs {limbs : List ℕ} (below : AreLimbs (2 ^ 64) limbs) :
    ofBeBytes (bytesOfLimbs limbs) = Nat.ofDigits (2 ^ 64) limbs := by
  induction limbs with
  | nil => rfl
  | cons v limbs ih =>
    rw [bytesOfLimbs, ofBeBytes_append, ih below.tail, ofBeBytes_beBytesOn below.head,
      length_beBytesOn, Nat.ofDigits_cons]
    ring

theorem foldl_writeLimb {len : ℕ} (i m : ℕ) (done : List UInt8)
    (total : len = m + (i + limbs.length) * 8) :
    (limbs.zipIdx i).foldl (fun out (v, i) => writeLimb len v i out)
        (replicate (m + limbs.length * 8) 0 ++ done) =
      replicate m 0 ++ (bytesOfLimbs limbs ++ done) := by
  induction limbs generalizing i done with
  | nil => simp [bytesOfLimbs]
  | cons v limbs ih =>
    have room : m + (v :: limbs).length * 8 = m + limbs.length * 8 + 8 := by
      rw [length_cons]
      ring
    have place : len = m + limbs.length * 8 + 8 + i * 8 := by omega
    rw [zipIdx_cons, foldl_cons, room]
    simp only
    rw [place, writeLimb_eq, ← place, ih (i + 1) _ (by omega), bytesOfLimbs, append_assoc]

theorem toBeBytes_eq {len : ℕ} (fits : a.n * 8 ≤ len) :
    a.toBeBytes len = beBytesOn len a.value := by
  have bound : a.value < 256 ^ len := by
    refine lt_of_lt_of_le a.value_lt_n ?_
    rw [show 256 = 2 ^ 8 from rfl, ← pow_mul]
    exact Nat.pow_le_pow_right (by decide) (by omega)
  have bytes : a.toBeBytes len = replicate (len - a.n * 8) 0 ++ bytesOfLimbs a.limbs := by
    have total : len = len - a.n * 8 + (0 + a.limbs.length) * 8 := by
      rw [zero_add]
      exact (Nat.sub_add_cancel fits).symm
    have written := foldl_writeLimb a.limbs 0 (len - a.n * 8) [] total
    rwa [append_nil, append_nil, show len - a.n * 8 + a.limbs.length * 8 = len from
      Nat.sub_add_cancel fits] at written
  have zeros (k : ℕ) : ofBeBytes (replicate k 0) = 0 := by
    induction k with
    | zero => rfl
    | succ k ih => rw [replicate_succ, ofBeBytes_cons, ih]; simp
  rw [eq_beBytesOn_iff bound, bytes, ofBeBytes_append, zeros, ofBeBytes_bytesOfLimbs a.below,
    length_append, length_bytesOfLimbs, length_replicate]
  exact ⟨Nat.sub_add_cancel fits, by rw [zero_mul, zero_add]; rfl⟩

/-! ## Comparisons and bits -/

def isZero (a : BigInt) : Bool := a.limbs.all (· == 0)

theorem isZero_iff : a.isZero ↔ a.value = 0 := by
  rw [value, ofDigits_eq_zero_iff (by decide), isZero]
  simp

def bitLen (a : BigInt) : ℕ := bitLength 64 a.limbs

theorem bitLen_eq : a.bitLen = Nat.size a.value := bitLength_eq a.below

def bit (a : BigInt) (i : ℕ) : Bool := (a.limbs.getD (i / 64) 0).testBit (i % 64)

theorem bit_eq : a.bit i = a.value.testBit i :=
  (testBit_ofDigits a.below (by decide) i).symm

def cmp (a b : BigInt) : Ordering := compareLimbs a.limbs b.limbs

theorem cmp_eq : a.cmp b = compare a.value b.value :=
  compareLimbs_eq a.below b.below

theorem cmp_eq_lt_iff : a.cmp b = .lt ↔ a.value < b.value := by
  rw [cmp_eq, Nat.compare_eq_lt]

/-! ## Arithmetic -/

def sub (a b : BigInt) : BigInt :=
  ofLimbs (subLimbs (2 ^ 64) a.limbs b.limbs 0)
    (by rw [length_subLimbs]; exact Nat.max_le.mpr ⟨a.length_le, b.length_le⟩)
    (subLimbs_spec (by decide) a.below b.below (by decide)).1

theorem value_sub (less : b.value ≤ a.value) : (a.sub b).value = a.value - b.value := by
  rw [sub, value_ofLimbs, ofDigits_subLimbs (by decide) a.below b.below less]
  rfl

theorem areLimbs_zeros (k : ℕ) : AreLimbs (2 ^ 64) (replicate k 0) := by
  intro limb mem
  rw [eq_of_mem_replicate mem]
  decide

/-- Limbs of the product beyond the last of the 64 are dropped. -/
def mul (a b : BigInt) : BigInt :=
  ofLimbs (mulLimbs (2 ^ 64) a.limbs b.limbs (replicate (min (a.n + b.n) maxLimbs) 0))
    (by rw [length_mulLimbs, length_replicate]; exact Nat.min_le_right _ _)
    (areLimbs_mulLimbs (by decide) _ _ (areLimbs_zeros _))

theorem value_mul (fits : a.n + b.n ≤ maxLimbs) : (a.mul b).value = a.value * b.value := by
  have zeros : replicate (min (a.n + b.n) maxLimbs) 0 =
      replicate b.limbs.length 0 ++ replicate a.limbs.length 0 := by
    rw [min_eq_left fits, replicate_append_replicate, add_comm]
    rfl
  rw [mul, value_ofLimbs, zeros,
    (mulLimbs_spec a.below b.below (areLimbs_zeros _) length_replicate).2,
    Nat.ofDigits_replicate_zero, zero_add]
  rfl

/-- The limbs of a shifted number before they are cut off at 64. -/
def shiftedLimbs (a : BigInt) (k : ℕ) : List ℕ :=
  replicate (k / 64) 0 ++ shiftLimbs 64 (k % 64) a.limbs 0

theorem shiftedLimbs_spec (k : ℕ) : AreLimbs (2 ^ 64) (a.shiftedLimbs k) ∧
    Nat.ofDigits (2 ^ 64) (a.shiftedLimbs k) = a.value * 2 ^ k := by
  have none : 0 < 2 ^ (k % 64) := Nat.two_pow_pos _
  obtain ⟨below, shifted⟩ :=
    shiftLimbs_spec (w := 64) (le_of_lt (Nat.mod_lt k (by decide))) a.below none
  constructor
  · intro limb mem
    rcases mem_append.mp mem with zero | limb
    · exact areLimbs_zeros _ _ zero
    · exact below _ limb
  · have split : 2 ^ k = (2 ^ 64) ^ (k / 64) * 2 ^ (k % 64) := by
      rw [← pow_mul, ← pow_add, Nat.div_add_mod]
    rw [shiftedLimbs, Nat.ofDigits_append, shifted, length_replicate, Nat.ofDigits_replicate_zero,
      split]
    change _ = Nat.ofDigits _ _ * _
    ring

def shlN (a : BigInt) (k : ℕ) : BigInt :=
  if k / 64 ≥ maxLimbs then zero
  else ofLimbs ((a.shiftedLimbs k).take maxLimbs) (by simp) ((a.shiftedLimbs_spec k).1.take _)

theorem value_shlN (fits : a.value * 2 ^ k < 2 ^ (64 * maxLimbs)) :
    (a.shlN k).value = a.value * 2 ^ k := by
  obtain ⟨below, shifted⟩ := a.shiftedLimbs_spec k
  rw [shlN]
  split
  · -- only zero can be shifted that far
    have least : 2 ^ (64 * maxLimbs) ≤ 2 ^ k := Nat.pow_le_pow_right (by decide) (by omega)
    have none : a.value = 0 := by
      by_contra some
      have := Nat.mul_le_mul (Nat.pos_of_ne_zero some) least
      omega
    rw [value_zero, none, zero_mul]
  · rw [value_ofLimbs, ← Nat.ofDigits_mod_pow_eq_ofDigits_take _ (by decide) _ below, shifted,
      ← pow_mul, Nat.mod_eq_of_lt fits]

/-! ## Modular arithmetic -/

/-- A round of the long division: subtract `m << shift` if possible. -/
def reduceStep (m r : BigInt) (shift : ℕ) : BigInt :=
  if r.cmp (m.shlN shift) ≠ .lt then r.sub (m.shlN shift) else r

def modulo (a m : BigInt) : BigInt :=
  if a.cmp m = .lt then a
  else (range (a.bitLen - m.bitLen + 1)).reverse.foldl (reduceStep m) a

theorem value_reduceStep {r : BigInt} {shift : ℕ} (fits : m.value * 2 ^ shift < 2 ^ (64 * maxLimbs))
    (bound : r.value < m.value * 2 ^ (shift + 1)) :
    (reduceStep m r shift).value < m.value * 2 ^ shift ∧
      (reduceStep m r shift).value % m.value = r.value % m.value := by
  rw [reduceStep]
  split
  · rename_i notLess
    rw [Ne, cmp_eq_lt_iff, value_shlN fits, not_lt] at notLess
    rw [value_sub (by rwa [value_shlN fits]), value_shlN fits]
    rw [pow_succ, ← mul_assoc] at bound
    refine ⟨by omega, ?_⟩
    exact Nat.sub_mul_mod notLess
  · rename_i less
    rw [not_not, cmp_eq_lt_iff, value_shlN fits] at less
    exact ⟨less, rfl⟩

/-- The rounds down to shift zero keep the remainder and leave less than the modulus. -/
theorem value_foldl_reduceStep (rounds : ℕ) {r : BigInt}
    (fits : ∀ shift < rounds, m.value * 2 ^ shift < 2 ^ (64 * maxLimbs))
    (bound : r.value < m.value * 2 ^ rounds) :
    ((range rounds).reverse.foldl (reduceStep m) r).value = r.value % m.value := by
  induction rounds generalizing r with
  | zero =>
    rw [pow_zero, mul_one] at bound
    exact (Nat.mod_eq_of_lt bound).symm
  | succ rounds ih =>
    obtain ⟨smaller, same⟩ := value_reduceStep (fits rounds (Nat.lt_succ_self _)) bound
    rw [range_succ, reverse_append, reverse_singleton, singleton_append,
      foldl_cons, ih (fun shift below => fits shift (Nat.lt_succ_of_lt below)) smaller, same]

theorem value_modulo (pos : 0 < m.value) : (a.modulo m).value = a.value % m.value := by
  rw [modulo]
  split
  · rename_i less
    rw [cmp_eq_lt_iff] at less
    exact (Nat.mod_eq_of_lt less).symm
  rename_i notLess
  rw [cmp_eq_lt_iff, not_lt] at notLess
  have sizes : Nat.size m.value ≤ Nat.size a.value := Nat.size_le_size notLess
  have some : 0 < Nat.size m.value := Nat.size_pos.mpr pos
  have least : 2 ^ (Nat.size m.value - 1) ≤ m.value := Nat.lt_size.mp (by omega)
  have widest : Nat.size a.value ≤ 64 * maxLimbs := Nat.size_le.mpr a.value_lt
  rw [bitLen_eq, bitLen_eq]
  apply value_foldl_reduceStep
  · intro shift below
    calc m.value * 2 ^ shift
        < 2 ^ Nat.size m.value * 2 ^ shift :=
          Nat.mul_lt_mul_of_pos_right (Nat.lt_size_self _) (Nat.two_pow_pos _)
      _ = 2 ^ (Nat.size m.value + shift) := (pow_add _ _ _).symm
      _ ≤ 2 ^ (64 * maxLimbs) := Nat.pow_le_pow_right (by decide) (by omega)
  · calc a.value
        < 2 ^ Nat.size a.value := Nat.lt_size_self _
      _ = 2 ^ (Nat.size m.value - 1) * 2 ^ (Nat.size a.value - Nat.size m.value + 1) := by
          rw [← pow_add]
          congr 1
          omega
      _ ≤ _ := Nat.mul_le_mul_right _ least

def modMul (a b m : BigInt) : BigInt := (a.mul b).modulo m

theorem value_modMul (pos : 0 < m.value) (smallA : a.value < 2 ^ (64 * 32))
    (smallB : b.value < 2 ^ (64 * 32)) : (a.modMul b m).value = a.value * b.value % m.value := by
  have limbsA : a.n ≤ 32 := n_le (by decide) smallA
  have limbsB : b.n ≤ 32 := n_le (by decide) smallB
  rw [modMul, value_modulo pos, value_mul (add_le_add limbsA limbsB)]

/-- A round of the exponentiation on the result and the squared base. -/
def expStep (exp m : BigInt) (state : BigInt × BigInt) (i : ℕ) : BigInt × BigInt :=
  (if exp.bit i then state.1.modMul state.2 m else state.1, state.2.modMul state.2 m)

def modExp (base exp m : BigInt) : BigInt :=
  if m.isZero then zero
  else ((range exp.bitLen).foldl (expStep exp m) (fromU64 1, base.modulo m)).1

/-- What the exponentiation returns: the result starts as one and is reduced only by a
multiplication. -/
def power (base exp m : ℕ) : ℕ := if exp = 0 then 1 else base ^ exp % m

theorem power_lt {base exp m : ℕ} (pos : 0 < m) (bound : m ≤ 2 ^ (64 * 32)) :
    power base exp m < 2 ^ (64 * 32) := by
  rw [power]
  split
  · exact one_lt_pow₀ (by decide) (by decide)
  · exact lt_of_lt_of_le (Nat.mod_lt _ pos) bound

theorem power_mod (base exp m : ℕ) : power base exp m % m = base ^ exp % m := by
  rw [power]
  split
  · rename_i none
    rw [none, pow_zero]
  · exact Nat.mod_mod _ _

/-- After `k` rounds the result is the power for the `k` lowest bits of the exponent. -/
theorem value_foldl_expStep (pos : 0 < m.value) (bound : m.value ≤ 2 ^ (64 * 32)) (k : ℕ) :
    ((range k).foldl (expStep exp m) (fromU64 1, base.modulo m)).1.value =
        power base.value (exp.value % 2 ^ k) m.value ∧
      ((range k).foldl (expStep exp m) (fromU64 1, base.modulo m)).2.value =
        base.value ^ 2 ^ k % m.value := by
  induction k with
  | zero => simp [value_modulo pos, power, Nat.mod_one]
  | succ k ih =>
    rw [range_succ, foldl_append, foldl_cons, foldl_nil]
    generalize (range k).foldl (expStep exp m) (fromU64 1, base.modulo m) = state at ih
    obtain ⟨result, square⟩ := ih
    have smallResult : state.1.value < 2 ^ (64 * 32) := result ▸ power_lt pos bound
    have smallSquare : state.2.value < 2 ^ (64 * 32) :=
      square ▸ lt_of_lt_of_le (Nat.mod_lt _ pos) bound
    constructor
    · rw [expStep, bit_eq, Nat.mod_pow_succ, ← Nat.toNat_testBit]
      cases set : exp.value.testBit k with
      | false => simpa using result
      | true =>
        have ne : exp.value % 2 ^ k + 2 ^ k ≠ 0 := by
          omega
        simp only [if_true, Bool.toNat_true, mul_one]
        rw [value_modMul pos smallResult smallSquare, result, square, Nat.mul_mod,
          power_mod, Nat.mod_mod, ← Nat.mul_mod, ← pow_add, power, if_neg ne]
    · rw [expStep, value_modMul pos smallSquare smallSquare, square, ← Nat.mul_mod, ← pow_add,
        pow_succ, mul_two]

theorem value_modExp (pos : 0 < m.value) (bound : m.value ≤ 2 ^ (64 * 32)) :
    (base.modExp exp m).value = power base.value exp.value m.value := by
  have ne : ¬m.isZero := by
    rw [isZero_iff]
    omega
  rw [modExp, if_neg ne, (value_foldl_expStep pos bound _).1, bitLen_eq,
    Nat.mod_eq_of_lt (Nat.lt_size_self _)]

theorem value_modExp_zero (zero : m.value = 0) : (base.modExp exp m).value = 0 := by
  rw [modExp, if_pos ((isZero_iff).mpr zero), value_zero]

/-- The inverse for a prime modulus, by Fermat's theorem. -/
def modInv (a m : BigInt) : Option BigInt := some (a.modExp (m.sub (fromU64 2)) m)

theorem value_modInv (prime : m.value.Prime) (bound : m.value ≤ 2 ^ (64 * 32)) :
    ∃ inv, a.modInv m = some inv ∧ inv.value = a.value ^ (m.value - 2) % m.value := by
  refine ⟨_, rfl, ?_⟩
  have two : (fromU64 2).value = 2 := value_fromU64 2
  rw [value_modExp prime.pos bound, value_sub (two.trans_le prime.two_le), two, power]
  split
  next none => rw [none, pow_zero, Nat.mod_eq_of_lt prime.one_lt]
  next => rfl

/-- The power below a prime modulus is an inverse. -/
theorem mul_pow_sub_two_mod {a m : ℕ} (prime : m.Prime) (unit : ¬m ∣ a) :
    a * (a ^ (m - 2) % m) % m = 1 := by
  have two := prime.two_le
  have fermat : a ^ (m - 1) ≡ 1 [MOD m] := by
    have := Nat.ModEq.pow_totient ((Nat.Prime.coprime_iff_not_dvd prime).mpr unit).symm
    rwa [Nat.totient_prime prime] at this
  rw [Nat.mul_mod_mod, ← pow_succ', show m - 2 + 1 = m - 1 by omega, fermat,
    Nat.mod_eq_of_lt prime.one_lt]

/-- Modular powers and inverses of numbers that were read from bytes are exact. -/
theorem modExp_modInv_exact (base exp m : List UInt8) (positive : 1 < ofBeBytes m)
    (bound : ofBeBytes m ≤ 2 ^ 2048) (smallBase : ofBeBytes base < 2 ^ 4096)
    (smallExp : ofBeBytes exp < 2 ^ 4096) :
    ((fromBeBytes base).modExp (fromBeBytes exp) (fromBeBytes m)).value =
        ofBeBytes base ^ ofBeBytes exp % ofBeBytes m ∧
      ((ofBeBytes m).Prime → ¬ofBeBytes m ∣ ofBeBytes base →
        ∃ inv, (fromBeBytes base).modInv (fromBeBytes m) = some inv ∧
          ofBeBytes base * inv.value % ofBeBytes m = 1) := by
  have whole {bytes : List UInt8} (small : ofBeBytes bytes < 2 ^ 4096) :
      (fromBeBytes bytes).value = ofBeBytes bytes := by
    rw [value_fromBeBytes, show 64 * maxLimbs = 4096 from rfl, Nat.mod_eq_of_lt small]
  have modulus : (fromBeBytes m).value = ofBeBytes m :=
    whole (bound.trans_lt (pow_lt_pow_right₀ (by decide) (by decide)))
  have bound' : (fromBeBytes m).value ≤ 2 ^ (64 * 32) := by
    rw [modulus, show 64 * 32 = 2048 from rfl]
    exact bound
  constructor
  · rw [value_modExp (by omega) bound', modulus, whole smallBase, whole smallExp, power]
    split
    next none => rw [none, pow_zero, Nat.mod_eq_of_lt positive]
    next => rfl
  · intro prime unit
    obtain ⟨inv, found, value⟩ := value_modInv (a := fromBeBytes base) (modulus ▸ prime) bound'
    refine ⟨inv, found, ?_⟩
    rw [value, modulus, whole smallBase]
    exact mul_pow_sub_two_mod prime unit

theorem modExp_modInv_three_seven :
    ((fromBeBytes [3]).modExp (fromBeBytes [5]) (fromBeBytes [7])).value = 5 ∧
      ∃ inv, (fromBeBytes [3]).modInv (fromBeBytes [7]) = some inv ∧ 3 * inv.value % 7 = 1 := by
  have small {k : ℕ} (byte : UInt8) (large : 8 ≤ k) : ofBeBytes [byte] < 2 ^ k :=
    (ofBeBytes_lt [byte]).trans_le (Nat.pow_le_pow_right (by decide) large : 2 ^ 8 ≤ 2 ^ k)
  obtain ⟨powers, inverses⟩ := modExp_modInv_exact [3] [5] [7] (by decide)
    (small 7 (by decide)).le (small 3 (by decide)) (small 5 (by decide))
  exact ⟨powers, inverses (by decide) (by decide)⟩

end BigInt

end SmartOs.Crypto
