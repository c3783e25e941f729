/-
# X25519

The function of RFC 7748: a Montgomery ladder over the integers modulo `2 ^ 255 - 19`, on a scalar
with some of its bits fixed and on the u-coordinate of a point.
-/

import Mathlib.Data.ZMod.Basic
import SmartOs.Math.LittleEndian

namespace SmartOs.Crypto.Rfc7748

open Math

def prime25519 : ℕ := 2 ^ 255 - 19

/-- The three lowest bits and the highest one are zero, and the second highest one is one. -/
def decodeScalar (k : Bytes 32) : ℕ := ofLeBytes k.val % 2 ^ 254 / 8 * 8 + 2 ^ 254

def decodeUCoordinate (u : Bytes 32) : ℕ := ofLeBytes u.val % 2 ^ 255

section Ladder

variable {R : Type*} [CommRing R]

/-- The variables of the loop. -/
structure State (R : Type*) where
  x2 : R
  z2 : R
  x3 : R
  z3 : R
  swap : Bool

def cswap (swap : Bool) (a b : R) : R × R := if swap then (b, a) else (a, b)

def a24 : ℕ := 121665

/-- The round for one bit of the scalar. -/
def step (x1 : R) (s : State R) (bit : Bool) : State R :=
  let swap := s.swap ^^ bit
  let (x2, x3) := cswap swap s.x2 s.x3
  let (z2, z3) := cswap swap s.z2 s.z3
  let a := x2 + z2
  let aa := a ^ 2
  let b := x2 - z2
  let bb := b ^ 2
  let e := aa - bb
  let c := x3 + z3
  let d := x3 - z3
  let da := d * a
  let cb := c * b
  { x3 := (da + cb) ^ 2
    z3 := x1 * (da - cb) ^ 2
    x2 := aa * bb
    z2 := e * (aa + a24 * e)
    swap := bit }

/-- The loop over the bits of the scalar, the highest first. -/
def ladder (k : ℕ) (u : R) : State R :=
  (List.range 255).reverse.foldl (fun s t => step u s (k.testBit t)) ⟨1, 0, u, 1, false⟩

end Ladder

def x25519 (k u : Bytes 32) : ZMod prime25519 :=
  let s := ladder (decodeScalar k) (decodeUCoordinate u : ZMod prime25519)
  let x2 := (cswap s.swap s.x2 s.x3).1
  let z2 := (cswap s.swap s.z2 s.z3).1
  x2 * z2 ^ (prime25519 - 2)

end SmartOs.Crypto.Rfc7748
