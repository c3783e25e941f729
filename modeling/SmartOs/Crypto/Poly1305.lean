/-
# Poly1305

The one-time authenticator, three times: as RFC 8439 defines it, as `poly1305_mac` of `net/tls.rs`
computes it with five limbs of 26 bits, and as `poly1305_tag` of `crypto/chacha20.rs` does with
128-bit integers.
-/

import SmartOs.CS.Blocks
import SmartOs.CS.MachineWord
import SmartOs.Math.FoldedLimbs
import SmartOs.Math.LittleEndian

namespace SmartOs.Crypto

open CS Math

variable (key : Bytes 32)

/-! ## The definition -/

namespace Rfc8439

def prime1305 : ℕ := 2 ^ 130 - 5

def clampMask : ℕ := 0x0ffffffc0ffffffc0ffffffc0fffffff

/-- The point, from the first half of the key. -/
def r : ℕ := ofLeBytes (field 0 16 key.val) &&& clampMask

/-- What is added at the end, from the second half. -/
def s : ℕ := ofLeBytes (field 16 16 key.val)

/-- The number of a block, with one bit appended. -/
def blockValue (chunk : List UInt8) : ℕ := ofLeBytes (chunk ++ [1])

/-- A polynomial without a constant term, the highest coefficient first. -/
def polynomial (r : ℕ) : List ℕ → ℕ
  | [] => 0
  | c :: cs => c * r ^ (cs.length + 1) + polynomial r cs

/-- The polynomial of the message at `r`, modulo the prime. -/
def residue (message : List UInt8) : ℕ :=
  polynomial (r key) ((chunks 16 message).map blockValue) % prime1305

def poly1305 (message : List UInt8) : List UInt8 :=
  toLeBytes 16 ((residue key message + s key) % 2 ^ 128)

end Rfc8439

/-! ## With five limbs -/

namespace Tls

abbrev Limbs := Five (Word 64)

def mask26 : Word 64 := 0x3FFFFFF

def mask32 : Word 64 := 0xFFFFFFFF

/-- A little-endian `u32`. -/
def load (bytes : List UInt8) (i : ℕ) : Word 64 := .ofNat 64 (ofLeBytes (field i 4 bytes))

def rLimbs : Limbs :=
  let t0 := load key.val 0
  let t1 := load key.val 4
  let t2 := load key.val 8
  let t3 := load key.val 12
  ⟨t0 &&& 0x3FFFFFF, (t0 >>> 26 ||| t1 <<< 6) &&& 0x3FFFF03,
   (t1 >>> 20 ||| t2 <<< 12) &&& 0x3FFC0FF, (t2 >>> 14 ||| t3 <<< 18) &&& 0x3F03FFF,
   t3 >>> 8 &&& 0x00FFFFF⟩

/-- The chunk with a one behind it, filled up to 17 bytes. -/
def padded (chunk : List UInt8) : List UInt8 :=
  chunk ++ 1 :: List.replicate (16 - chunk.length) 0

variable (h : Limbs)

/-- The limbs with those of a chunk added. -/
def addChunk (chunk : List UInt8) : Limbs :=
  let m := padded chunk
  let m0 := load m 0
  let m1 := load m 4
  let m2 := load m 8
  let m3 := load m 12
  let m4 : Word 64 := .ofNat 64 (m.getD 16 0).toNat
  ⟨h.l0 + (m0 &&& 0x3FFFFFF), h.l1 + ((m0 >>> 26 ||| m1 <<< 6) &&& 0x3FFFFFF),
   h.l2 + ((m1 >>> 20 ||| m2 <<< 12) &&& 0x3FFFFFF),
   h.l3 + ((m2 >>> 14 ||| m3 <<< 18) &&& 0x3FFFFFF), h.l4 + (m3 >>> 8 ||| m4 <<< 24)⟩

/-- Multiply by `r`, with the upper products times five in the lower places. -/
def mulR (r : Limbs) : Limbs :=
  let r1_5 := r.l1 * 5
  let r2_5 := r.l2 * 5
  let r3_5 := r.l3 * 5
  let r4_5 := r.l4 * 5
  ⟨h.l0 * r.l0 + h.l1 * r4_5 + h.l2 * r3_5 + h.l3 * r2_5 + h.l4 * r1_5,
   h.l0 * r.l1 + h.l1 * r.l0 + h.l2 * r4_5 + h.l3 * r3_5 + h.l4 * r2_5,
   h.l0 * r.l2 + h.l1 * r.l1 + h.l2 * r.l0 + h.l3 * r4_5 + h.l4 * r3_5,
   h.l0 * r.l3 + h.l1 * r.l2 + h.l2 * r.l1 + h.l3 * r.l0 + h.l4 * r4_5,
   h.l0 * r.l4 + h.l1 * r.l3 + h.l2 * r.l2 + h.l3 * r.l1 + h.l4 * r.l0⟩

/-- The carries after a product. -/
def carryUp (d : Limbs) : Limbs :=
  let d1 := d.l1 + d.l0 >>> 26
  let d2 := d.l2 + d1 >>> 26
  let d3 := d.l3 + d2 >>> 26
  let d4 := d.l4 + d3 >>> 26
  let h0 := (d.l0 &&& mask26) + d4 >>> 26 * 5
  ⟨h0 &&& mask26, (d1 &&& mask26) + h0 >>> 26, d2 &&& mask26, d3 &&& mask26, d4 &&& mask26⟩

def processBlock (r h : Limbs) (chunk : List UInt8) : Limbs := carryUp (mulR (addChunk h chunk) r)

/-- The carries that are left after the last block. -/
def carryLast : Limbs :=
  let h2 := h.l2 + h.l1 >>> 26
  let h3 := h.l3 + h2 >>> 26
  let h4 := h.l4 + h3 >>> 26
  let h0 := h.l0 + h4 >>> 26 * 5
  ⟨h0 &&& mask26, (h.l1 &&& mask26) + h0 >>> 26, h2 &&& mask26, h3 &&& mask26, h4 &&& mask26⟩

/-- `g = h + 5` with its carries; the top limb is not masked. -/
def plusFive : Limbs :=
  let g0 := h.l0 + 5
  let g1 := h.l1 + g0 >>> 26
  let g2 := h.l2 + g1 >>> 26
  let g3 := h.l3 + g2 >>> 26
  let g4 := h.l4 + g3 >>> 26
  ⟨g0 &&& mask26, g1 &&& mask26, g2 &&& mask26, g3 &&& mask26, g4⟩

/-- Take `g` where it has overflowed. The mask is all ones if `g4 >> 2` is one, as it would be for
a top limb of two bits. -/
def selectReduced : Limbs :=
  let g := plusFive h
  let mask := Word.wrappingSub 0 (g.l4 >>> 2)
  ⟨(h.l0 &&& ~~~mask) ||| (g.l0 &&& mask), (h.l1 &&& ~~~mask) ||| (g.l1 &&& mask),
   (h.l2 &&& ~~~mask) ||| (g.l2 &&& mask), (h.l3 &&& ~~~mask) ||| (g.l3 &&& mask),
   (h.l4 &&& ~~~mask) ||| (g.l4 &&& mask)⟩

/-- The limbs as four words of 32 bits, and the second half of the key added. -/
def addS (key : Bytes 32) : List UInt8 :=
  let f0 := h.l0 ||| h.l1 <<< 26
  let f1 := h.l1 >>> 6 ||| h.l2 <<< 20
  let f2 := h.l2 >>> 12 ||| h.l3 <<< 14
  let f3 := h.l3 >>> 18 ||| h.l4 <<< 8
  let sum0 := (f0 &&& mask32) + load key.val 16
  let sum1 := (f1 &&& mask32) + load key.val 20 + sum0 >>> 32
  let sum2 := (f2 &&& mask32) + load key.val 24 + sum1 >>> 32
  let sum3 := (f3 &&& mask32) + load key.val 28 + sum2 >>> 32
  toLeBytes 4 (sum0.cast 32).value ++ (toLeBytes 4 (sum1.cast 32).value ++
    (toLeBytes 4 (sum2.cast 32).value ++ toLeBytes 4 (sum3.cast 32).value))

def poly1305Mac (data : List UInt8) : List UInt8 :=
  let h := (chunks 16 data).foldl (processBlock (rLimbs key)) ⟨0, 0, 0, 0, 0⟩
  addS (selectReduced (carryLast h)) key

end Tls

/-! ## With 128 bits -/

namespace ChaCha20

/-- The limbs of a number. -/
def split (n : BitVec 128) : Five (BitVec 64) :=
  ⟨(n &&& 0x3ffffff).setWidth 64, (n >>> 26 &&& 0x3ffffff).setWidth 64,
   (n >>> 52 &&& 0x3ffffff).setWidth 64, (n >>> 78 &&& 0x3ffffff).setWidth 64,
   (n >>> 104 &&& 0x3ffffff).setWidth 64⟩

/-- The number of some limbs. Limbs of more than 26 bits run into each other. -/
def join (x : Five (BitVec 64)) : BitVec 128 :=
  x.l0.setWidth 128 ||| x.l1.setWidth 128 <<< 26 ||| x.l2.setWidth 128 <<< 52 |||
    x.l3.setWidth 128 <<< 78 ||| x.l4.setWidth 128 <<< 104

def addLimbs (x y : Five (BitVec 64)) : Five (BitVec 64) :=
  ⟨x.l0 + y.l0, x.l1 + y.l1, x.l2 + y.l2, x.l3 + y.l3, x.l4 + y.l4⟩

/-- The round for the block at `i`. The bit that is appended to a full block is added for the
first block only. -/
def tagStep (r : Five (BitVec 64)) (s : ℕ × Five (BitVec 64)) (chunk : List UInt8) :
    ℕ × Five (BitVec 64) :=
  let i := s.1
  let n := chunk.length
  let block := chunk ++ 1 :: List.replicate (16 - n) 0
  let num := BitVec.ofNat 128 (ofLeBytes (field 0 16 block))
  let acc := addLimbs s.2 (split num)
  let acc := if i ≤ 15 ∧ n = 16 then { acc with l4 := acc.l4 + (1 : BitVec 64) <<< 24 } else acc
  let product := join acc * join r
  (i + n, split product)

def rClamped : BitVec 128 :=
  BitVec.ofNat 128 (ofLeBytes (field 0 16 key.val)) &&& 0x0ffffffc0ffffffc0ffffffc0fffffff

def tagAccumulator (msg : List UInt8) : BitVec 128 :=
  join ((chunks 16 msg).foldl (tagStep (split (rClamped key))) (0, ⟨0, 0, 0, 0, 0⟩)).2

/-- The second half of the key, read as four words. -/
def sNum : BitVec 128 :=
  let s (i : ℕ) := BitVec.ofNat 128 (ofLeBytes (field (16 + 4 * i) 4 key.val))
  s 0 ||| s 1 <<< 32 ||| s 2 <<< 64 ||| s 3 <<< 96

def poly1305Tag (msg : List UInt8) : List UInt8 :=
  toLeBytes 16 (tagAccumulator key msg + sNum key).toNat

end ChaCha20

end SmartOs.Crypto
