/-
# X25519 of the TLS client

The functions `fe_*`, `cswap` and `x25519` of `net/tls.rs`. A field element is five words with
limbs of 51 bits. Sums and differences are not carried, so limbs get larger than that until the
next product. The words remember overflow, and so do the bytes of the result.
-/

import SmartOs.CS.MachineWord
import SmartOs.Math.FoldedLimbs
import SmartOs.Math.LittleEndian

namespace SmartOs.Crypto.Tls

open CS Math

abbrev Fe := Five (Word 64)

/-- The lowest limb of the prime, and the others. -/
def p0 : Word 64 := .ofNat 64 (2 ^ 51 - 19)

def p1 : Word 64 := .ofNat 64 (2 ^ 51 - 1)

/-! ## Bytes -/

/-- The `bits` bits from `start` on: up to eight bytes, then a shift and a mask. -/
def loadBits (b : Bytes 32) (start bits : ℕ) : Word 64 :=
  let byteIdx := start / 8
  let bitIdx := start % 8
  let v := (List.range 8).foldl (fun v i =>
    if byteIdx + i < 32 then
      v ||| Word.ofNat 64 (b.val.getD (byteIdx + i) 0).toNat <<< (8 * i)
    else v) (0 : Word 64)
  v >>> bitIdx &&& ((1 : Word 64) <<< bits - 1)

def feFromBytes (b : Bytes 32) : Fe :=
  ⟨loadBits b 0 51, loadBits b 51 51, loadBits b 102 51, loadBits b 153 51, loadBits b 204 51⟩

/-- The carries from limb to limb, and what comes out at the top. -/
def carryPass (f : Fe) : Fe × Word 64 :=
  let f1 := f.l1 + f.l0 >>> 51
  let f2 := f.l2 + f1 >>> 51
  let f3 := f.l3 + f2 >>> 51
  let f4 := f.l4 + f3 >>> 51
  (⟨f.l0 &&& p1, f1 &&& p1, f2 &&& p1, f3 &&& p1, f4 &&& p1⟩, f4 >>> 51)

/-- The carries before the limbs are written out: up, around the top, and up again. What comes out
of the top the second time is dropped. -/
def feReduce (f : Fe) : Fe :=
  let (f, carry) := carryPass f
  (carryPass { f with l0 := f.l0 + 19 * carry }).1

/-- The limbs side by side. -/
def fePack (f : Fe) : List (Word 8) :=
  let lo := f.l0.cast 128 ||| f.l1.cast 128 <<< 51 ||| f.l2.cast 128 <<< 102
  let hi := f.l2.cast 128 >>> 26 ||| f.l3.cast 128 <<< 25 ||| f.l4.cast 128 <<< 76
  (List.range 16).map (fun i => (lo >>> (8 * i)).cast 8) ++
    ((List.range 15).map (fun i => (hi >>> (8 * i)).cast 8) ++ [(hi >>> 120).cast 8])

/-- The number of some bytes, the lowest first. -/
def leValue (bytes : List (Word 8)) : ℕ := Nat.ofDigits 256 (bytes.map Word.value)

def feToBytes (f : Fe) : List (Word 8) := fePack (feReduce f)

/-! ## Field elements -/

def feAdd (a b : Fe) : Fe :=
  ⟨a.l0 + b.l0, a.l1 + b.l1, a.l2 + b.l2, a.l3 + b.l3, a.l4 + b.l4⟩

/-- Twice the prime is added first, so that no limb gets negative. -/
def feSub (a b : Fe) : Fe :=
  let twoP0 := 2 * p0
  let twoP1 := 2 * p1
  ⟨a.l0 + twoP0 - b.l0, a.l1 + twoP1 - b.l1, a.l2 + twoP1 - b.l2, a.l3 + twoP1 - b.l3,
   a.l4 + twoP1 - b.l4⟩

/-- The product in 128 bits, with the upper half times 19 in the lower places. -/
def feProduct (a b : Fe) : Five (Word 128) :=
  let a0 := a.l0.cast 128
  let a1 := a.l1.cast 128
  let a2 := a.l2.cast 128
  let a3 := a.l3.cast 128
  let a4 := a.l4.cast 128
  let b0 := b.l0.cast 128
  let b1 := b.l1.cast 128
  let b2 := b.l2.cast 128
  let b3 := b.l3.cast 128
  let b4 := b.l4.cast 128
  let r19 : Word 128 := 19
  ⟨a0 * b0 + r19 * (a1 * b4 + a2 * b3 + a3 * b2 + a4 * b1),
   a0 * b1 + a1 * b0 + r19 * (a2 * b4 + a3 * b3 + a4 * b2),
   a0 * b2 + a1 * b1 + a2 * b0 + r19 * (a3 * b4 + a4 * b3),
   a0 * b3 + a1 * b2 + a2 * b1 + a3 * b0 + r19 * a4 * b4,
   a0 * b4 + a1 * b3 + a2 * b2 + a3 * b1 + a4 * b0⟩

/-- The carries of a product. -/
def feCarry (t : Five (Word 128)) : Fe :=
  let mask := p1.cast 128
  let t1 := t.l1 + t.l0 >>> 51
  let t2 := t.l2 + t1 >>> 51
  let t3 := t.l3 + t2 >>> 51
  let t4 := t.l4 + t3 >>> 51
  let c4 := t4 >>> 51
  let t0 := (t.l0 &&& mask) + 19 * c4
  ⟨(t0 &&& mask).cast 64, ((t1 &&& mask) + t0 >>> 51).cast 64, (t2 &&& mask).cast 64,
   (t3 &&& mask).cast 64, (t4 &&& mask).cast 64⟩

def feMul (a b : Fe) : Fe := feCarry (feProduct a b)

def feSq (a : Fe) : Fe := feMul a a

/-- One squaring, and more in a loop from one to `k`. -/
def squarings (k : ℕ) (a : Fe) : Fe := feSq^[k - 1] (feSq a)

def feInvert (z : Fe) : Fe :=
  let z2 := feSq z
  let z9 := feMul (feSq (feSq z2)) z
  let z11 := feMul z2 z9
  let z2_5 := feMul (feSq z11) z9
  let z2_10 := feMul (squarings 5 z2_5) z2_5
  let z2_20 := feMul (squarings 10 z2_10) z2_10
  let z2_40 := feMul (squarings 20 z2_20) z2_20
  let z2_50 := feMul (squarings 10 z2_40) z2_10
  let z2_100 := feMul (squarings 50 z2_50) z2_50
  let z2_200 := feMul (squarings 100 z2_100) z2_100
  let z2_250 := feMul (squarings 50 z2_200) z2_50
  let tmp := squarings 5 z2_250
  feMul tmp z11

/-! ## The ladder -/

/-- Exchange two words if `swap` is one, without a branch. -/
def cswapLimb (swap a b : Word 64) : Word 64 × Word 64 :=
  let m := Word.wrappingSub 0 swap
  let t := m &&& (a ^^^ b)
  (a ^^^ t, b ^^^ t)

def cswap (swap : Word 64) (a b : Fe) : Fe × Fe :=
  let c0 := cswapLimb swap a.l0 b.l0
  let c1 := cswapLimb swap a.l1 b.l1
  let c2 := cswapLimb swap a.l2 b.l2
  let c3 := cswapLimb swap a.l3 b.l3
  let c4 := cswapLimb swap a.l4 b.l4
  (⟨c0.1, c1.1, c2.1, c3.1, c4.1⟩, ⟨c0.2, c1.2, c2.2, c3.2, c4.2⟩)

structure Ladder where
  x2 : Fe
  z2 : Fe
  x3 : Fe
  z3 : Fe
  swap : Word 64

def ladderStep (x1 : Fe) (s : Ladder) (kBit : Word 64) : Ladder :=
  let swap := s.swap ^^^ kBit
  let (x2, x3) := cswap swap s.x2 s.x3
  let (z2, z3) := cswap swap s.z2 s.z3
  let a := feAdd x2 z2
  let aa := feSq a
  let b := feSub x2 z2
  let bb := feSq b
  let e := feSub aa bb
  let c := feAdd x3 z3
  let d := feSub x3 z3
  let da := feMul d a
  let cb := feMul c b
  { x3 := feSq (feAdd da cb)
    z3 := feMul x1 (feSq (feSub da cb))
    x2 := feMul aa bb
    z2 := feMul e (feAdd aa (feMul ⟨121665, 0, 0, 0, 0⟩ e))
    swap := kBit }

def clamp (k : Bytes 32) : List UInt8 :=
  let k := k.val.set 0 (k.val.getD 0 0 &&& 248)
  let k := k.set 31 (k.getD 31 0 &&& 127)
  k.set 31 (k.getD 31 0 ||| 64)

def kBit (k : List UInt8) (i : ℕ) : Word 64 :=
  .ofNat 64 ((k.getD (i / 8) 0 >>> UInt8.ofNat (i % 8)) &&& 1).toNat

def ladder (k : List UInt8) (u : Fe) : Ladder :=
  (List.range 255).reverse.foldl (fun s i => ladderStep u s (kBit k i))
    ⟨⟨1, 0, 0, 0, 0⟩, ⟨0, 0, 0, 0, 0⟩, u, ⟨1, 0, 0, 0, 0⟩, 0⟩

def x25519 (k u : Bytes 32) : List (Word 8) :=
  let s := ladder (clamp k) (feFromBytes u)
  let x2 := (cswap s.swap s.x2 s.x3).1
  let z2 := (cswap s.swap s.z2 s.z3).1
  feToBytes (feMul x2 (feInvert z2))

end SmartOs.Crypto.Tls
