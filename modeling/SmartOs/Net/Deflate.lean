/-
# The DEFLATE format

A DEFLATE stream is a sequence of blocks, the last of them marked. A block holds its data
either as it is or as literals and back-references in canonical prefix codes, which are fixed
or described at the head of the block. This file says what the blocks mean and how they are
written as bits; it does not refer to the decompressor.

Numbers are written least significant bit first and codewords most significant bit first.
-/

import SmartOs.CS.CanonicalCode

namespace SmartOs.Net.Deflate

open CS.CanonicalCode Math

/-! ## Length and distance symbols -/

/-- How many bits follow the length symbol `257 + i`. -/
def lengthExtra (i : ℕ) : ℕ := if i < 8 ∨ i = 28 then 0 else i / 4 - 1

/-- The least length that the length symbol `257 + i` stands for. -/
def lengthBase (i : ℕ) : ℕ :=
  if i < 8 then 3 + i else if i = 28 then 258 else 3 + (4 + i % 4) * 2 ^ (i / 4 - 1)

/-- How many bits follow the distance symbol `i`. -/
def distanceExtra (i : ℕ) : ℕ := if i < 4 then 0 else i / 2 - 1

/-- The least distance that the distance symbol `i` stands for. -/
def distanceBase (i : ℕ) : ℕ := if i < 4 then 1 + i else 1 + (2 + i % 2) * 2 ^ (i / 2 - 1)

/-! ## Tokens -/

/-- A literal byte, or a reference back to earlier output given by the symbols for its length
and distance and the values of the bits that follow them. -/
inductive Token where
  | literal (byte : UInt8)
  | copy (length lengthBits distance distanceBits : ℕ)

/-- The bytes that a reference adds: the last `distance` bytes, repeated as often as needed. -/
def backReference (out : List UInt8) (distance length : ℕ) : List UInt8 :=
  (List.range length).map fun i => (out.drop (out.length - distance)).getD (i % distance) 0

namespace Token

/-- The output after a token. -/
def apply (out : List UInt8) : Token → List UInt8
  | literal byte => out ++ [byte]
  | copy length lengthBits distance distanceBits =>
    out ++ backReference out (distanceBase distance + distanceBits)
      (lengthBase length + lengthBits)

def bits (lit dist : List ℕ) : Token → List Bool
  | literal byte => codeword lit byte.toNat
  | copy length lengthBits distance distanceBits =>
    codeword lit (257 + length) ++ lsbBits (lengthExtra length) lengthBits ++
      codeword dist distance ++ lsbBits (distanceExtra distance) distanceBits

/-- The token has codewords, and a reference stays within the output. -/
def Valid (lit dist : List ℕ) (out : List UInt8) : Token → Prop
  | literal byte => lengthOf lit byte.toNat ≠ 0
  | copy length lengthBits distance distanceBits =>
    length < 29 ∧ lengthBits < 2 ^ lengthExtra length ∧
      distance < 30 ∧ distanceBits < 2 ^ distanceExtra distance ∧
      lengthOf lit (257 + length) ≠ 0 ∧ lengthOf dist distance ≠ 0 ∧
      distanceBase distance + distanceBits ≤ out.length

instance (lit dist : List ℕ) (out : List UInt8) (token : Token) :
    Decidable (token.Valid lit dist out) := by
  cases token <;> unfold Valid <;> infer_instance

end Token

/-- The bits of compressed data, ended by the symbol 256. -/
def tokensBits (lit dist : List ℕ) : List Token → List Bool
  | [] => codeword lit 256
  | token :: tokens => token.bits lit dist ++ tokensBits lit dist tokens

def ValidTokens (lit dist : List ℕ) : List UInt8 → List Token → Prop
  | _, [] => lengthOf lit 256 ≠ 0
  | out, token :: tokens => token.Valid lit dist out ∧ ValidTokens lit dist (token.apply out) tokens

instance decidableValidTokens (lit dist : List ℕ) : ∀ (out : List UInt8) (tokens : List Token),
    Decidable (ValidTokens lit dist out tokens)
  | _, [] => inferInstanceAs (Decidable (_ ≠ _))
  | out, token :: tokens =>
    have := decidableValidTokens lit dist (token.apply out) tokens
    inferInstanceAs (Decidable (_ ∧ _))

/-! ## Codes -/

def fixedLit : List ℕ :=
  List.replicate 144 8 ++ List.replicate 112 9 ++ List.replicate 24 7 ++ List.replicate 8 8

def fixedDist : List ℕ := List.replicate 30 5

/-- One step in the description of code lengths: a length, the last length three to six times
again, or some zeros. -/
inductive LengthRun where
  | single (length : ℕ)
  | again (bits : ℕ)
  | zeros (bits : ℕ)
  | manyZeros (bits : ℕ)

namespace LengthRun

def apply (lengths : List ℕ) : LengthRun → List ℕ
  | single length => lengths ++ [length]
  | again bits => lengths ++ List.replicate (bits + 3) (lengths.getLastD 0)
  | zeros bits => lengths ++ List.replicate (bits + 3) 0
  | manyZeros bits => lengths ++ List.replicate (bits + 11) 0

def symbol : LengthRun → ℕ
  | single length => length
  | again _ => 16
  | zeros _ => 17
  | manyZeros _ => 18

/-- The bits after the codeword of the symbol. -/
def extra : LengthRun → List Bool
  | single _ => []
  | again bits => lsbBits 2 bits
  | zeros bits => lsbBits 3 bits
  | manyZeros bits => lsbBits 7 bits

def bits (cl : List ℕ) (run : LengthRun) : List Bool := codeword cl run.symbol ++ run.extra

/-- The step has a codeword, its value fits, and there is a last length to repeat. -/
def Valid (cl lengths : List ℕ) (run : LengthRun) : Prop :=
  lengthOf cl run.symbol ≠ 0 ∧
    match run with
    | single length => length ≤ 15
    | again bits => bits < 2 ^ 2 ∧ lengths ≠ []
    | zeros bits => bits < 2 ^ 3
    | manyZeros bits => bits < 2 ^ 7

instance (cl lengths : List ℕ) (run : LengthRun) : Decidable (run.Valid cl lengths) := by
  cases run <;> unfold Valid <;> infer_instance

end LengthRun

def ValidRuns (cl : List ℕ) : List ℕ → List LengthRun → Prop
  | _, [] => True
  | lengths, run :: runs => run.Valid cl lengths ∧ ValidRuns cl (run.apply lengths) runs

/-- The order in which the lengths of the code for the runs are written. -/
def codeLengthOrder : List ℕ := [16, 17, 18, 0, 8, 7, 9, 6, 10, 5, 11, 4, 12, 3, 13, 2, 14, 1, 15]

/-- The head of a block with its own codes. -/
structure Header where
  hlit : ℕ
  hdist : ℕ
  hclen : ℕ
  cl : List ℕ
  runs : List LengthRun

namespace Header

variable (header : Header)

/-- The lengths of both codes, one after the other. -/
def lengths : List ℕ := header.runs.foldl LengthRun.apply []

def lit : List ℕ := header.lengths.take (header.hlit + 257)

def dist : List ℕ := header.lengths.drop (header.hlit + 257)

/-- The symbols of the code for the runs whose lengths are written. -/
def listed : List ℕ := codeLengthOrder.take (header.hclen + 4)

def bits : List Bool :=
  lsbBits 5 header.hlit ++ lsbBits 5 header.hdist ++ lsbBits 4 header.hclen ++
    header.listed.flatMap (fun s => lsbBits 3 (header.cl.getD s 0)) ++
    header.runs.flatMap (LengthRun.bits header.cl)

structure Valid (header : Header) : Prop where
  hlit : header.hlit < 2 ^ 5
  hdist : header.hdist < 2 ^ 5
  hclen : header.hclen < 2 ^ 4
  size : header.cl.length = 19
  small : ∀ l ∈ header.cl, l < 2 ^ 3
  unlisted : ∀ s < 19, s ∉ header.listed → header.cl.getD s 0 = 0
  cl : Legal header.cl 15
  runs : ValidRuns header.cl [] header.runs
  total : header.lengths.length = header.hlit + 257 + (header.hdist + 1)
  lit : Legal header.lit 15
  dist : Legal header.dist 15

end Header

/-! ## Blocks -/

inductive Block where
  | stored (padding : List Bool) (data : List UInt8)
  | fixed (tokens : List Token)
  | dynamic (header : Header) (tokens : List Token)

namespace Block

/-- The output after a block. -/
def apply (out : List UInt8) : Block → List UInt8
  | stored _ data => out ++ data
  | fixed tokens => tokens.foldl Token.apply out
  | dynamic _ tokens => tokens.foldl Token.apply out

def type : Block → ℕ
  | stored _ _ => 0
  | fixed _ => 1
  | dynamic _ _ => 2

/-- The bits after the three bits at the head of every block. -/
def body : Block → List Bool
  | stored padding data =>
    padding ++ lsbBits 16 data.length ++ lsbBits 16 (65535 - data.length) ++ bytesBits data
  | fixed tokens => tokensBits fixedLit fixedDist tokens
  | dynamic header tokens => header.bits ++ tokensBits header.lit header.dist tokens

/-- The bits of a block, marked as the last one or not. -/
def bits (final : Bool) (block : Block) : List Bool := final :: lsbBits 2 block.type ++ block.body

/-- The block can stand at a bit position after some output. The padding of a stored block
ends at a byte boundary. -/
def Valid (pos : ℕ) (out : List UInt8) : Block → Prop
  | stored padding data =>
    padding.length < 8 ∧ (pos + 3 + padding.length) % 8 = 0 ∧ data.length < 2 ^ 16
  | fixed tokens => ValidTokens fixedLit fixedDist out tokens
  | dynamic header tokens => header.Valid ∧ ValidTokens header.lit header.dist out tokens

end Block

def streamBits : List Block → List Bool
  | [] => []
  | [block] => block.bits true
  | block :: blocks => block.bits false ++ streamBits blocks

theorem streamBits_cons_cons (block next : Block) (blocks : List Block) :
    streamBits (block :: next :: blocks) = block.bits false ++ streamBits (next :: blocks) := rfl

/-- A stream has at least one block, and each block is valid where it stands. -/
def ValidStream : ℕ → List UInt8 → List Block → Prop
  | _, _, [] => False
  | pos, out, [block] => block.Valid pos out
  | pos, out, block :: blocks =>
    block.Valid pos out ∧ ValidStream (pos + (block.bits false).length) (block.apply out) blocks

def streamData (blocks : List Block) : List UInt8 := blocks.foldl Block.apply []

end SmartOs.Net.Deflate
