/-
# Decompression of stored files

The decoders of `smartfs/compression.rs`. The run-length decoder keeps to the size that it is
given. The LZ4 decoder looks at the size between sequences only, so a sequence that begins below
it may end above it. An access out of range is a panic, and so are more rounds than there are
bytes.
-/

import SmartOs.CS.StateError
import SmartOs.SmartFs.Compression

namespace SmartOs.SmartFs

open CS List

/-! ## Decoders -/

/-- A round takes a byte, and from what is behind it and the output so far it gets how many bytes
it takes of the former, and the output. -/
abbrev Round := UInt8 → (rest out : List UInt8) → Except (Abort String) (ℕ × List UInt8)

/-- Rounds until nothing is left. -/
def rounds (round : Round) : (fuel : ℕ) → (rest out : List UInt8) →
    Except (Abort String) (List UInt8)
  | _, [], out => .ok out
  | 0, _ :: _, _ => .error .panic
  | fuel + 1, b :: rest, out =>
    match round b rest out with
    | .error e => .error e
    | .ok (n, out) => rounds round fuel (rest.drop n) out

def rleToken (maxSize : ℕ) (b : UInt8) (rest out : List UInt8) : Except String (ℕ × List UInt8) :=
  if b = 0xFF then
    match rest with
    | byte :: high :: low :: _ =>
      if maxSize < out.length + (high.toNat * 256 + low.toNat) then
        .error "RLE decompression overflow"
      else .ok (3, out ++ replicate (high.toNat * 256 + low.toNat) byte)
    | _ => .error "Truncated RLE sequence"
  else .ok (0, out ++ [b])

def rleRound (maxSize : ℕ) : Round := fun b rest out =>
  match rleToken maxSize b rest out with
  | .error e => .error (.error e)
  | .ok (n, out) =>
    if maxSize < out.length then .error (.error "RLE decompression overflow") else .ok (n, out)

/-- The bytes that follow a nibble of 15, and how many there are. -/
def extendLength (truncated : String) : ℕ → List UInt8 → Except String (ℕ × ℕ)
  | _, [] => .error truncated
  | n, extra :: rest =>
    if extra < 255 then .ok (n + extra.toNat, 1)
    else (extendLength truncated (n + extra.toNat) rest).map fun read => (read.1, read.2 + 1)

def readLength (truncated : String) (nibble n : ℕ) (rest : List UInt8) : Except String (ℕ × ℕ) :=
  if nibble = 15 then extendLength truncated n rest else .ok (n, 0)

/-- Literals and a match, which has no offset if it is empty. -/
structure Sequence where
  literals : List UInt8
  offset : ℕ
  matchLen : ℕ
  start : offset = 0 → matchLen = 0

/-- What follows the literals of a sequence, and how many bytes it has. -/
def readMatch (token : UInt8) (literals : List UInt8) : List UInt8 → Except String (ℕ × Sequence)
  | [] => .ok (0, ⟨literals, 0, 0, fun _ => rfl⟩)
  | [_] => .error "Truncated LZ4 offset"
  | low :: high :: rest =>
    if zero : low.toNat + high.toNat * 256 = 0 then .error "Invalid LZ4 zero offset"
    else
      (readLength "Truncated LZ4 match length" (token.toNat % 16) (token.toNat % 16 + 4) rest).map
        fun read => (read.2 + 2, ⟨literals, _, read.1, fun none => absurd none zero⟩)

/-- A sequence, and how many bytes it has behind the token. -/
def readSequence (token : UInt8) (rest : List UInt8) : Except String (ℕ × Sequence) := do
  let (litLen, i) ← readLength "Truncated LZ4 literal length" (token.toNat / 16)
    (token.toNat / 16) rest
  if rest.length < i + litLen then throw "Truncated LZ4 literals"
  else
    let (n, s) ← readMatch token ((rest.drop i).take litLen) (rest.drop (i + litLen))
    pure (i + litLen + n, s)

/-- Byte by byte, so that a match may overlap its copy. -/
def copyMatch : (matchLen matchStart : ℕ) → List UInt8 → Except (Abort String) (List UInt8)
  | 0, _, out => .ok out
  | n + 1, i, out =>
    match out[i]? with
    | none => .error .panic
    | some byte => copyMatch n (i + 1) (out ++ [byte])

def Sequence.apply (s : Sequence) (out : List UInt8) : Except (Abort String) (List UInt8) :=
  if out.length + s.literals.length < s.offset then
    .error (.error "LZ4 offset beyond output buffer")
  else copyMatch s.matchLen (out.length + s.literals.length - s.offset) (out ++ s.literals)

def lz4Round (maxSize : ℕ) : Round := fun token rest out =>
  if maxSize ≤ out.length then .ok (rest.length, out)
  else
    match readSequence token rest with
    | .error e => .error (.error e)
    | .ok (n, s) => (s.apply out).map fun out => (n, out)

/-- Every round takes a byte at least. -/
def decompress (data : List UInt8) (method : CompressionMethod) (originalSize : ℕ) :
    Except (Abort String) (List UInt8) :=
  match method with
  | .none => .ok data
  | .rle => rounds (rleRound originalSize) data.length data []
  | .lz4Simple => rounds (lz4Round originalSize) data.length data []

/-! ## The size of the output -/

/-- The decoder ends without a panic, with no more bytes than it should. -/
def Bounded (maxSize : ℕ) (result : Except (Abort String) (List UInt8)) : Prop :=
  result ≠ .error .panic ∧ ∀ out, result = .ok out → out.length ≤ maxSize

variable {maxSize fuel : ℕ} {rest out : List UInt8} {s : Sequence}

theorem bounded_ok : Bounded maxSize (.ok out) ↔ out.length ≤ maxSize :=
  ⟨fun bounded => bounded.2 out rfl, fun short => ⟨nofun, by rintro _ ⟨⟩; exact short⟩⟩

theorem bounded_error (e : String) : Bounded maxSize (.error (.error e)) := ⟨nofun, nofun⟩

/-- A sequence of the data begins at an output below the size and ends above it. -/
inductive Crosses (maxSize : ℕ) : List UInt8 → ℕ → Prop
  | here {token rest n s written} (below : written < maxSize)
      (read : readSequence token rest = .ok (n, s)) (valid : s.offset ≤ written + s.literals.length)
      (above : maxSize < written + s.literals.length + s.matchLen) :
      Crosses maxSize (token :: rest) written
  | later {token rest n s written} (below : written < maxSize)
      (read : readSequence token rest = .ok (n, s)) (valid : s.offset ≤ written + s.literals.length)
      (behind : Crosses maxSize (rest.drop n) (written + s.literals.length + s.matchLen)) :
      Crosses maxSize (token :: rest) written

theorem rle_bounded (enough : rest.length ≤ fuel) (within : out.length ≤ maxSize) :
    Bounded maxSize (rounds (rleRound maxSize) fuel rest out) := by
  induction fuel generalizing rest out with
  | zero =>
    obtain rfl := length_eq_zero_iff.mp (Nat.le_zero.mp enough)
    exact bounded_ok.mpr within
  | succ fuel ih =>
    cases rest with
    | nil => exact bounded_ok.mpr within
    | cons b rest =>
      rw [length_cons] at enough
      rw [rounds, rleRound]
      cases rleToken maxSize b rest out with
      | error e => exact bounded_error e
      | ok result =>
        by_cases beyond : maxSize < result.2.length
        · simp only [if_pos beyond]
          exact bounded_error _
        · simp only [if_neg beyond]
          exact ih (by rw [length_drop]; omega) (not_lt.mp beyond)

theorem copyMatch_ok {n i : ℕ} (inside : n ≠ 0 → i < out.length) :
    ∃ out', copyMatch n i out = .ok out' ∧ out'.length = out.length + n := by
  induction n generalizing i out with
  | zero => exact ⟨out, rfl, rfl⟩
  | succ n ih =>
    have inside := inside n.succ_ne_zero
    rw [copyMatch, getElem?_eq_getElem inside]
    obtain ⟨out', copied, length⟩ := @ih (out ++ [out[i]]) (i + 1) (by simp; omega)
    exact ⟨out', copied, by rw [length, length_append, length_singleton]; omega⟩

theorem rounds_of_full (full : maxSize ≤ out.length) (enough : rest.length ≤ fuel) :
    rounds (lz4Round maxSize) fuel rest out = .ok out := by
  cases rest with
  | nil => cases fuel <;> rfl
  | cons b rest =>
    cases fuel with
    | zero => cases enough
    | succ fuel =>
      rw [rounds, lz4Round, if_pos full]
      dsimp only
      rw [drop_length]
      cases fuel <;> rfl

theorem lz4_bounded_iff (enough : rest.length ≤ fuel) (within : out.length ≤ maxSize) :
    Bounded maxSize (rounds (lz4Round maxSize) fuel rest out) ↔
      ¬Crosses maxSize rest out.length := by
  induction fuel generalizing rest out with
  | zero =>
    obtain rfl := length_eq_zero_iff.mp (Nat.le_zero.mp enough)
    exact iff_of_true (bounded_ok.mpr within) nofun
  | succ fuel ih =>
    cases rest with
    | nil => exact iff_of_true (bounded_ok.mpr within) nofun
    | cons token rest =>
      by_cases full : maxSize ≤ out.length
      · rw [rounds_of_full full enough]
        refine iff_of_true (bounded_ok.mpr within) ?_
        rintro (⟨below⟩ | ⟨below⟩) <;> exact absurd full (not_le.mpr below)
      rw [length_cons] at enough
      rw [rounds, lz4Round, if_neg full]
      cases read : readSequence token rest with
      | error e =>
        refine iff_of_true (bounded_error e) ?_
        rintro (⟨-, read'⟩ | ⟨-, read'⟩) <;> cases read.symm.trans read'
      | ok result =>
        obtain ⟨n, s⟩ := result
        have shorter : (rest.drop n).length ≤ fuel := by
          rw [length_drop]
          omega
        by_cases valid : s.offset ≤ out.length + s.literals.length
        · obtain ⟨out', copied, length⟩ := @copyMatch_ok (out ++ s.literals) s.matchLen
            (out.length + s.literals.length - s.offset) (by
              rw [length_append]
              have := s.start
              omega)
          rw [length_append] at length
          simp only [Sequence.apply, if_neg (not_lt.mpr valid), copied, Except.map]
          by_cases above : maxSize < out.length + s.literals.length + s.matchLen
          · rw [rounds_of_full (by omega) shorter, bounded_ok]
            exact iff_of_false (by omega)
              (not_not.mpr (.here (not_le.mp full) read valid above))
          · rw [ih shorter (by omega), length, not_iff_not]
            refine ⟨.later (not_le.mp full) read valid, ?_⟩
            rintro (⟨-, read', -, beyond⟩ | ⟨-, read', -, behind⟩) <;> cases read.symm.trans read'
            · exact absurd beyond above
            · exact behind
        · simp only [Sequence.apply, if_pos (not_le.mp valid)]
          refine iff_of_true (bounded_error _) ?_
          rintro (⟨-, read', valid'⟩ | ⟨-, read', valid'⟩) <;> cases read.symm.trans read' <;>
            exact valid valid'

/-- The run-length decoder keeps to the size. The LZ4 decoder does exactly if no sequence of the
data crosses it. -/
theorem decompress_bounded_iff (data : List UInt8) (maxSize : ℕ) :
    Bounded maxSize (decompress data .rle maxSize) ∧
      (Bounded maxSize (decompress data .lz4Simple maxSize) ↔ ¬Crosses maxSize data 0) :=
  ⟨rle_bounded le_rfl (Nat.zero_le _), lz4_bounded_iff le_rfl (Nat.zero_le _)⟩

/-- Two literals, where one byte was expected. -/
theorem decompress_unbounded : ¬Bounded 1 (decompress [0x20, 1, 2] .lz4Simple 1) := by
  have result : decompress [0x20, 1, 2] .lz4Simple 1 = .ok [1, 2] := by decide
  rw [result, bounded_ok]
  decide

end SmartOs.SmartFs
