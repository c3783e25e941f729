/-
# SHA-256, SHA-384 and SHA-512

The hashers of `crypto/sha2.rs`. Bytes go into a buffer one at a time, and a full buffer is
compressed at once. The buffer is never cleared, so behind `idx` it holds bytes of the block
before.

`Sha256` and `Sha512` are the same code for words of 32 and 64 bits. It is modelled once, over a
`Variant` that holds what differs.
-/

import SmartOs.Crypto.Fips180

namespace SmartOs.Crypto

open CS Math
open Fips180 (Words)

def k256 : List (BitVec 32) :=
  [0x428a2f98, 0x71374491, 0xb5c0fbcf, 0xe9b5dba5, 0x3956c25b, 0x59f111f1,
   0x923f82a4, 0xab1c5ed5, 0xd807aa98, 0x12835b01, 0x243185be, 0x550c7dc3,
   0x72be5d74, 0x80deb1fe, 0x9bdc06a7, 0xc19bf174, 0xe49b69c1, 0xefbe4786,
   0x0fc19dc6, 0x240ca1cc, 0x2de92c6f, 0x4a7484aa, 0x5cb0a9dc, 0x76f988da,
   0x983e5152, 0xa831c66d, 0xb00327c8, 0xbf597fc7, 0xc6e00bf3, 0xd5a79147,
   0x06ca6351, 0x14292967, 0x27b70a85, 0x2e1b2138, 0x4d2c6dfc, 0x53380d13,
   0x650a7354, 0x766a0abb, 0x81c2c92e, 0x92722c85, 0xa2bfe8a1, 0xa81a664b,
   0xc24b8b70, 0xc76c51a3, 0xd192e819, 0xd6990624, 0xf40e3585, 0x106aa070,
   0x19a4c116, 0x1e376c08, 0x2748774c, 0x34b0bcb5, 0x391c0cb3, 0x4ed8aa4a,
   0x5b9cca4f, 0x682e6ff3, 0x748f82ee, 0x78a5636f, 0x84c87814, 0x8cc70208,
   0x90befffa, 0xa4506ceb, 0xbef9a3f7, 0xc67178f2]

def h256Init : Words 32 :=
  ⟨0x6a09e667, 0xbb67ae85, 0x3c6ef372, 0xa54ff53a, 0x510e527f, 0x9b05688c, 0x1f83d9ab, 0x5be0cd19⟩

def k512 : List (BitVec 64) :=
  [0x428a2f98d728ae22, 0x7137449123ef65cd, 0xb5c0fbcfec4d3b2f, 0xe9b5dba58189dbbc,
   0x3956c25bf348b538, 0x59f111f1b605d019, 0x923f82a4af194f9b, 0xab1c5ed5da6d8118,
   0xd807aa98a3030242, 0x12835b0145706fbe, 0x243185be4ee4b28c, 0x550c7dc3d5ffb4e2,
   0x72be5d74f27b896f, 0x80deb1fe3b1696b1, 0x9bdc06a725c71235, 0xc19bf174cf692694,
   0xe49b69c19ef14ad2, 0xefbe4786384f25e3, 0x0fc19dc68b8cd5b5, 0x240ca1cc77ac9c65,
   0x2de92c6f592b0275, 0x4a7484aa6ea6e483, 0x5cb0a9dcbd41fbd4, 0x76f988da831153b5,
   0x983e5152ee66dfab, 0xa831c66d2db43210, 0xb00327c898fb213f, 0xbf597fc7beef0ee4,
   0xc6e00bf33da88fc2, 0xd5a79147930aa725, 0x06ca6351e003826f, 0x142929670a0e6e70,
   0x27b70a8546d22ffc, 0x2e1b21385c26c926, 0x4d2c6dfc5ac42aed, 0x53380d139d95b3df,
   0x650a73548baf63de, 0x766a0abb3c77b2a8, 0x81c2c92e47edaee6, 0x92722c851482353b,
   0xa2bfe8a14cf10364, 0xa81a664bbc423001, 0xc24b8b70d0f89791, 0xc76c51a30654be30,
   0xd192e819d6ef5218, 0xd69906245565a910, 0xf40e35855771202a, 0x106aa07032bbd1b8,
   0x19a4c116b8d2d0c8, 0x1e376c085141ab53, 0x2748774cdf8eeb99, 0x34b0bcb5e19b48a8,
   0x391c0cb3c5c95a63, 0x4ed8aa4ae3418acb, 0x5b9cca4f7763e373, 0x682e6ff3d6b2b8a3,
   0x748f82ee5defb2fc, 0x78a5636f43172f60, 0x84c87814a1f0ab72, 0x8cc702081a6439ec,
   0x90befffa23631e28, 0xa4506cebde82bde9, 0xbef9a3f7b2c67915, 0xc67178f2e372532b,
   0xca273eceea26619c, 0xd186b8c721c0c207, 0xeada7dd6cde0eb1e, 0xf57d4f7fee6ed178,
   0x06f067aa72176fba, 0x0a637dc5a2c898a6, 0x113f9804bef90dae, 0x1b710b35131c471b,
   0x28db77f523047d84, 0x32caab7b40c72493, 0x3c9ebe0a15c9bebc, 0x431d67c49c100d4c,
   0x4cc5d4becb3e42b6, 0x597f299cfc657e2a, 0x5fcb6fab3ad6faec, 0x6c44198c4a475817]

def h512Init : Words 64 :=
  ⟨0x6a09e667f3bcc908, 0xbb67ae8584caa73b, 0x3c6ef372fe94f82b, 0xa54ff53a5f1d36f1,
   0x510e527fade682d1, 0x9b05688c2b3e6c1f, 0x1f83d9abfb41bd6b, 0x5be0cd19137e2179⟩

def h384Init : Words 64 :=
  ⟨0xcbbb9d5dc1059ed8, 0x629a292a367cd507, 0x9159015a3070dd17, 0x152fecd8f70e5939,
   0x67332667ffc00b31, 0x8eb44a8768581511, 0xdb0c2e0d64f98fa7, 0x47b5481dbefa4fa4⟩

/-- What the code has twice, with other constants. -/
structure Sha2Variant (w : ℕ) where
  wordLen : ℕ
  bufLen : ℕ
  /-- Where the length is put in the last block. -/
  lenPos : ℕ
  /-- The bits of the counter `len`. -/
  lenBits : ℕ
  rounds : ℕ
  k : List (BitVec w)
  /-- Two rotations and a shift each. -/
  schedule0 : ℕ × ℕ × ℕ
  schedule1 : ℕ × ℕ × ℕ
  /-- Three rotations each. -/
  round0 : ℕ × ℕ × ℕ
  round1 : ℕ × ℕ × ℕ

def sha256Variant : Sha2Variant 32 where
  wordLen := 4
  bufLen := 64
  lenPos := 56
  lenBits := 64
  rounds := 64
  k := k256
  schedule0 := (7, 18, 3)
  schedule1 := (17, 19, 10)
  round0 := (2, 13, 22)
  round1 := (6, 11, 25)

def sha512Variant : Sha2Variant 64 where
  wordLen := 8
  bufLen := 128
  lenPos := 112
  lenBits := 128
  rounds := 80
  k := k512
  schedule0 := (1, 8, 7)
  schedule1 := (19, 61, 6)
  round0 := (28, 34, 39)
  round1 := (14, 18, 41)

namespace Sha2Variant

variable {w : ℕ} (v : Sha2Variant w)

/-! ## The compression function -/

/-- The sixteen words of the buffer, and zeros. -/
def loadWords (buf : List UInt8) : List (BitVec w) :=
  (List.range v.rounds).map fun i =>
    if i < 16 then BitVec.ofNat w (ofBeBytes (field (i * v.wordLen) v.wordLen buf)) else 0

def expandStep (ws : List (BitVec w)) (i : ℕ) : List (BitVec w) :=
  let x := ws.getD (i - 15) 0
  let y := ws.getD (i - 2) 0
  let s0 := x.rotateRight v.schedule0.1 ^^^ x.rotateRight v.schedule0.2.1 ^^^ x >>> v.schedule0.2.2
  let s1 := y.rotateRight v.schedule1.1 ^^^ y.rotateRight v.schedule1.2.1 ^^^ y >>> v.schedule1.2.2
  ws.set i (ws.getD (i - 16) 0 + s0 + ws.getD (i - 7) 0 + s1)

def expand (buf : List UInt8) : List (BitVec w) :=
  (List.range' 16 (v.rounds - 16)).foldl v.expandStep (v.loadWords buf)

def compressRound (ws : List (BitVec w)) (x : Words w) (i : ℕ) : Words w :=
  let s1 := x.e.rotateRight v.round1.1 ^^^ x.e.rotateRight v.round1.2.1 ^^^
    x.e.rotateRight v.round1.2.2
  let ch := (x.e &&& x.f) ^^^ (~~~x.e &&& x.g)
  let t1 := x.h + s1 + ch + v.k.getD i 0 + ws.getD i 0
  let s0 := x.a.rotateRight v.round0.1 ^^^ x.a.rotateRight v.round0.2.1 ^^^
    x.a.rotateRight v.round0.2.2
  let maj := (x.a &&& x.b) ^^^ (x.a &&& x.c) ^^^ (x.b &&& x.c)
  let t2 := s0 + maj
  ⟨t1 + t2, x.a, x.b, x.c, x.d + t1, x.e, x.f, x.g⟩

def compress (state : Words w) (buf : List UInt8) : Words w :=
  state.add ((List.range v.rounds).foldl (v.compressRound (v.expand buf)) state)

end Sha2Variant

/-! ## The hasher -/

structure Sha2 {w : ℕ} (v : Sha2Variant w) where
  state : Words w
  buf : List UInt8
  len : ℕ
  idx : ℕ
  length_buf : buf.length = v.bufLen
  idx_lt : idx < v.bufLen

namespace Sha2

variable {w : ℕ} {v : Sha2Variant w}

def start (positive : 0 < v.bufLen) (init : Words w) : Sha2 v :=
  ⟨init, List.replicate v.bufLen 0, 0, 0, List.length_replicate, positive⟩

/-- The loop body of `update`. -/
def put (h : Sha2 v) (b : UInt8) : Sha2 v :=
  if full : h.idx + 1 = v.bufLen then
    { state := v.compress h.state (h.buf.set h.idx b)
      buf := h.buf.set h.idx b
      len := (h.len + 1) % 2 ^ v.lenBits
      idx := 0
      length_buf := by rw [List.length_set, h.length_buf]
      idx_lt := by omega }
  else
    { state := h.state
      buf := h.buf.set h.idx b
      len := (h.len + 1) % 2 ^ v.lenBits
      idx := h.idx + 1
      length_buf := by rw [List.length_set, h.length_buf]
      idx_lt := by have := h.idx_lt; omega }

def update (h : Sha2 v) (data : List UInt8) : Sha2 v := data.foldl put h

/-- The loops that write zeros from `idx` up to a limit. -/
def zeroFill (buf : List UInt8) (idx limit : ℕ) : List UInt8 :=
  (List.range' idx (limit - idx)).foldl (fun buf i => buf.set i 0) buf

def finalize (h : Sha2 v) : List UInt8 :=
  let marked := h.buf.set h.idx 0x80
  let (state, buf, idx) :=
    if v.lenPos < h.idx + 1 then
      -- no room for the length in this block
      let filled := zeroFill marked (h.idx + 1) v.bufLen
      (v.compress h.state filled, filled, 0)
    else (h.state, marked, h.idx + 1)
  let bitLen := h.len * 8 % 2 ^ v.lenBits
  let last := (zeroFill buf idx v.lenPos).take v.lenPos ++ beBytesOn (v.lenBits / 8) bitLen
  (v.compress state last).toList.flatMap fun x => beBytesOn v.wordLen x.toNat

end Sha2

abbrev Sha256 := Sha2 sha256Variant

def Sha256.new : Sha256 := .start (Nat.zero_lt_of_ne_zero nofun) h256Init

def sha256 (data : List UInt8) : List UInt8 := (Sha256.new.update data).finalize

abbrev Sha512 := Sha2 sha512Variant

def Sha512.new : Sha512 := .start (Nat.zero_lt_of_ne_zero nofun) h512Init

def sha512 (data : List UInt8) : List UInt8 := (Sha512.new.update data).finalize

/-- SHA-512 from other words, cut off. -/
def sha384 (data : List UInt8) : List UInt8 :=
  let h : Sha512 := .start (Nat.zero_lt_of_ne_zero nofun) h384Init
  (h.update data).finalize.take 48

end SmartOs.Crypto
