/-
# The Secure Hash Standard

SHA-256, SHA-384 and SHA-512 as the standard defines them: a message is padded to whole blocks
with a one bit, zeros and its length in bits, and a compression function is iterated over the
blocks. The constants are the leading bits of the fractional parts of roots of primes.

This is what the code in `crypto/sha2.rs` is compared with; nothing here is taken from it.
-/

import Mathlib.Analysis.SpecialFunctions.Pow.NthRootLemmas
import Mathlib.Data.Nat.Prime.Basic
import SmartOs.CS.Blocks
import SmartOs.Math.BigEndian

namespace SmartOs.Crypto.Fips180

open CS Math

/-! ## Constants -/

/-- The first `w` bits of the fractional part of the `k`-th root of `p`. -/
def fractionBits (k w p : ℕ) : BitVec w := BitVec.ofNat w (Nat.nthRoot k (p * 2 ^ (k * w)))

/-- The first eighty primes. -/
def primes : List ℕ := (List.range 410).filter Nat.Prime

/-! ## Functions and constants of one word size -/

section Functions

variable {w : ℕ}

def ch (x y z : BitVec w) : BitVec w := (x &&& y) ^^^ (~~~x &&& z)

def maj (x y z : BitVec w) : BitVec w := (x &&& y) ^^^ (x &&& z) ^^^ (y &&& z)

/-- The capital sigmas: three rotations. -/
def bigSigma (r : ℕ × ℕ × ℕ) (x : BitVec w) : BitVec w :=
  x.rotateRight r.1 ^^^ x.rotateRight r.2.1 ^^^ x.rotateRight r.2.2

/-- The small sigmas: two rotations and a shift. -/
def smallSigma (r : ℕ × ℕ × ℕ) (x : BitVec w) : BitVec w :=
  x.rotateRight r.1 ^^^ x.rotateRight r.2.1 ^^^ (x >>> r.2.2)

end Functions

/-- The functions of one word size. -/
structure Family (w : ℕ) where
  rounds : ℕ
  sum0 : ℕ × ℕ × ℕ
  sum1 : ℕ × ℕ × ℕ
  sigma0 : ℕ × ℕ × ℕ
  sigma1 : ℕ × ℕ × ℕ

def family32 : Family 32 := ⟨64, (2, 13, 22), (6, 11, 25), (7, 18, 3), (17, 19, 10)⟩

def family64 : Family 64 := ⟨80, (28, 34, 39), (14, 18, 41), (1, 8, 7), (19, 61, 6)⟩

/-- The eight working variables, or the eight words of a hash value. -/
@[ext]
structure Words (w : ℕ) where
  a : BitVec w
  b : BitVec w
  c : BitVec w
  d : BitVec w
  e : BitVec w
  f : BitVec w
  g : BitVec w
  h : BitVec w
  deriving DecidableEq

namespace Words

variable {w : ℕ}

def add (x y : Words w) : Words w :=
  ⟨x.a + y.a, x.b + y.b, x.c + y.c, x.d + y.d, x.e + y.e, x.f + y.f, x.g + y.g, x.h + y.h⟩

def toList (x : Words w) : List (BitVec w) := [x.a, x.b, x.c, x.d, x.e, x.f, x.g, x.h]

end Words

/-- The initial hash value from the square roots of eight primes. -/
def initial (w first : ℕ) : Words w :=
  let root (i : ℕ) := fractionBits 2 w (primes.getD (first + i) 0)
  ⟨root 0, root 1, root 2, root 3, root 4, root 5, root 6, root 7⟩

/-- The bytes of a word, of a block, and of the length at the end of the message. -/
def wordBytes (w : ℕ) : ℕ := w / 8
def blockBytes (w : ℕ) : ℕ := 16 * wordBytes w
def lengthBytes (w : ℕ) : ℕ := 2 * wordBytes w

/-- The constants of the rounds, from cube roots. -/
def constant (w t : ℕ) : BitVec w := fractionBits 3 w (primes.getD t 0)

/-- Word `t` of a block. -/
def word (w : ℕ) (block : List UInt8) (t : ℕ) : BitVec w :=
  BitVec.ofNat w (ofBeBytes (field (t * wordBytes w) (wordBytes w) block))

/-- The smallest number of zero bytes that fills the last block. -/
def zeros (w length : ℕ) : ℕ :=
  (blockBytes w - (length + 1 + lengthBytes w) % blockBytes w) % blockBytes w

/-- The message with a one bit, zeros, and its length in bits. -/
def pad (w : ℕ) (message : List UInt8) : List UInt8 :=
  message ++ (0x80 :: List.replicate (zeros w message.length) 0 ++
    beBytesOn (lengthBytes w) (8 * message.length))

namespace Family

variable {w : ℕ} (fam : Family w)

def schedule (block : List UInt8) (t : ℕ) : BitVec w :=
  if t < 16 then word w block t
  else smallSigma fam.sigma1 (schedule block (t - 2)) + schedule block (t - 7) +
    smallSigma fam.sigma0 (schedule block (t - 15)) + schedule block (t - 16)

def round (block : List UInt8) (v : Words w) (t : ℕ) : Words w :=
  let t1 := v.h + bigSigma fam.sum1 v.e + ch v.e v.f v.g + constant w t + fam.schedule block t
  let t2 := bigSigma fam.sum0 v.a + maj v.a v.b v.c
  ⟨t1 + t2, v.a, v.b, v.c, v.d + t1, v.e, v.f, v.g⟩

def hashBlock (value : Words w) (block : List UInt8) : Words w :=
  value.add ((List.range fam.rounds).foldl (fam.round block) value)

/-- The bytes of the last hash value. -/
def hash (start : Words w) (message : List UInt8) : List UInt8 :=
  ((blocks (blockBytes w) (pad w message)).foldl fam.hashBlock start).toList.flatMap fun x =>
    beBytesOn (wordBytes w) x.toNat

end Family

def sha256 (message : List UInt8) : List UInt8 := family32.hash (initial 32 0) message

def sha512 (message : List UInt8) : List UInt8 := family64.hash (initial 64 0) message

/-- SHA-384 starts from the next eight primes and returns the first six words. -/
def sha384 (message : List UInt8) : List UInt8 := (family64.hash (initial 64 8) message).take 48

end SmartOs.Crypto.Fips180
