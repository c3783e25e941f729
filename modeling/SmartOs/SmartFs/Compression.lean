/-
# Compression of stored files

`smartfs/compression.rs`: a method is chosen by the category of a file, and the data goes
through a run-length encoder, an LZ4-like encoder, or neither. The category comes from magic
bytes, the file name, floating-point statistics and a neural network; here it is a parameter.

No data is the beginning of the encoding that is chosen for it. For LZ4 the reason is the length,
except for one text of 65536 bytes, which is the beginning of its encoding as literals; but it has
long matches. The run-length encoder is chosen for data with eight equal bytes in a row, and what
it writes has such a row only where the data has a longer one.
-/

import SmartOs.Math.LittleEndian

namespace SmartOs.SmartFs

open SmartOs.Math List

variable {fuel j : ℕ} {b : UInt8}

inductive FileCategory where
  | text
  | sourceCode
  | config
  | binary
  | image
  | archive
  | data
  | unknown
  deriving DecidableEq

inductive CompressionMethod where
  | none
  | rle
  | lz4Simple
  deriving DecidableEq

/-- What the choice of a method rests on: the category of a file by its content and name,
and whether the entropy of a content is estimated above `7.0`. -/
structure Heuristics where
  classify : List UInt8 → List Char → FileCategory
  highEntropy : List UInt8 → Bool

/-! ## Choosing a method -/

/-- The loop of `has_long_runs`, after the byte `prev`. -/
def runScan : (prev : UInt8) → List UInt8 → (currentRun maxRun : ℕ) → ℕ
  | _, [], _, maxRun => maxRun
  | prev, byte :: rest, currentRun, maxRun =>
    if byte = prev then runScan byte rest (currentRun + 1) (max maxRun (currentRun + 1))
    else runScan byte rest 1 maxRun

/-- Eight equal bytes in a row among the first 256. -/
def hasLongRuns (data : List UInt8) : Bool :=
  match data.take 256 with
  | [] => false
  | first :: rest => 8 ≤ runScan first rest 1 0

def selectCompression (h : Heuristics) (data : List UInt8) (category : FileCategory) :
    CompressionMethod :=
  if data.length < 64 then .none
  else
    match category with
    | .image | .archive => .none
    | .text | .sourceCode | .config => .lz4Simple
    | .binary | .data => if hasLongRuns data then .rle else .lz4Simple
    | .unknown => if h.highEntropy data then .none else .lz4Simple

/-! ## Run lengths -/

/-- The number of bytes equal to `byte` from here on, with `byte` itself; at most 65535. -/
def runLength (byte : UInt8) (rest : List UInt8) : ℕ :=
  min 65535 (1 + (rest.takeWhile (· = byte)).length)

def rleLoop : ℕ → List UInt8 → List UInt8
  | 0, _ => []
  | _ + 1, [] => []
  | fuel + 1, byte :: rest =>
    let runLen := runLength byte rest
    if 4 ≤ runLen then
      [0xFF, byte, UInt8.ofNat (runLen / 256), UInt8.ofNat (runLen % 256)] ++
        rleLoop fuel ((byte :: rest).drop runLen)
    else (if byte = 0xFF then [0xFF, 0xFF, 0x00, 0x01] else [byte]) ++ rleLoop fuel rest

/-- Every round takes a byte at least. -/
def rleCompress (data : List UInt8) : List UInt8 := rleLoop data.length data

/-! ## Matches -/

/-- The bytes that follow a nibble of 15: 255 as often as it fits, then the rest. -/
def lengthBytes (remaining : ℕ) : List UInt8 :=
  replicate (remaining / 255) 255 ++ [UInt8.ofNat (remaining % 255)]

/-- A sequence: literals and, unless `matchLen` is zero, a match. -/
def emitSequence (literals : List UInt8) (matchLen offset : ℕ) : List UInt8 :=
  let litNibble := min 15 literals.length
  let matchNibble := min 15 (matchLen - 4)
  UInt8.ofNat (litNibble * 16 + matchNibble) ::
    (if 15 ≤ literals.length then lengthBytes (literals.length - 15) else []) ++ literals ++
    if 0 < matchLen then
      [UInt8.ofNat (offset % 256), UInt8.ofNat (offset / 256 % 256)] ++
        if 15 ≤ matchLen - 4 then lengthBytes (matchLen - 4 - 15) else []
    else []

def encodeLiteralsOnly (input : List UInt8) : List UInt8 := emitSequence input 0 0

/-- A slot of the hash table for the next four bytes. -/
def hash4 (data : List UInt8) : ℕ := ofLeBytes (data.take 4) * 2654435761 % 2 ^ 32 / 2 ^ 20

/-- How many bytes two texts have in common at their beginning. -/
def commonLength : List UInt8 → List UInt8 → ℕ
  | x :: xs, y :: ys => if x = y then commonLength xs ys + 1 else 0
  | _, _ => 0

/-- There is a match at `pos` for the position that the hash table had. -/
def Matches (input : List UInt8) (candidate pos : ℕ) : Prop :=
  candidate < pos ∧ pos - candidate ≤ 65535 ∧
    (input.drop candidate).take 4 = (input.drop pos).take 4
  deriving Decidable

def matchLength (input : List UInt8) (candidate pos : ℕ) : ℕ :=
  min 65535 (commonLength (input.drop candidate) (input.drop pos))

/-- The loop over the positions, with the hash table, the start of the literals that are not
written yet, and the output so far. -/
def lz4Loop (input : List UInt8) :
    ℕ → (hashTable : ℕ → ℕ) → (anchor pos : ℕ) → List UInt8 → List UInt8 × ℕ
  | 0, _, anchor, _, out => (out, anchor)
  | fuel + 1, hashTable, anchor, pos, out =>
    let slot := hash4 (input.drop pos)
    let candidate := hashTable slot
    let hashTable := Function.update hashTable slot (pos % 2 ^ 32)
    if pos + 4 ≤ input.length then
      if Matches input candidate pos then
        let next := pos + matchLength input candidate pos
        lz4Loop input fuel hashTable next next (out ++ emitSequence
          ((input.drop anchor).take (pos - anchor)) (matchLength input candidate pos)
          (pos - candidate))
      else lz4Loop input fuel hashTable anchor (pos + 1) out
    else (out, anchor)

/-- The sequences for the input, whether or not they are shorter than it. Every round moves on
by a position at least. -/
def lz4Sequences (input : List UInt8) : List UInt8 :=
  let (out, anchor) := lz4Loop input input.length (fun _ => 0) 0 0 []
  if anchor < input.length then out ++ emitSequence (input.drop anchor) 0 0 else out

def lz4SimpleCompress (input : List UInt8) : List UInt8 :=
  if input.length < 4 then encodeLiteralsOnly input
  else if (lz4Sequences input).length ≥ input.length then encodeLiteralsOnly input
  else lz4Sequences input

def compress (data : List UInt8) : CompressionMethod → List UInt8
  | .none => data
  | .rle => rleCompress data
  | .lz4Simple => lz4SimpleCompress data

/-! ## Runs in what the run-length encoder writes -/

variable {m : ℕ} {xs rest data ys : List UInt8}

/-- A run of a joined text lies in the second part, or goes on from the first into it. -/
theorem replicate_infix_append (run : replicate m b <:+: xs ++ ys) :
    replicate m b <:+: ys ∨ ∃ i ≤ xs.length, replicate (m - i) b <+: ys := by
  obtain ⟨before, after, joined⟩ := run
  rw [append_assoc, append_eq_append_iff] at joined
  rcases joined with ⟨common, rfl, rest⟩ | ⟨common, -, rfl⟩
  · refine .inr ⟨common.length, by simp, ?_⟩
    have tail := congrArg (drop common.length) rest
    rw [drop_left, drop_append, drop_replicate] at tail
    exact ⟨_, tail⟩
  · exact .inl ⟨common, after, by rw [append_assoc]⟩

theorem replicate_infix_mono {n : ℕ} (le : m ≤ n) (run : replicate n b <:+: xs) :
    replicate m b <:+: xs := by
  refine IsInfix.trans ?_ run
  obtain ⟨k, rfl⟩ := Nat.exists_eq_add_of_le le
  exact ⟨[], replicate k b, by rw [nil_append, ← replicate_add]⟩

theorem rleLoop_succ (fuel : ℕ) :
    ∃ token rest, rleLoop (fuel + 1) data = token ++ rleLoop fuel rest ∧ token.length ≤ 4 ∧
      rest <:+ data := by
  cases data with
  | nil => exact ⟨[], [], by cases fuel <;> rfl, Nat.zero_le 4, suffix_rfl⟩
  | cons byte rest =>
    rw [rleLoop]
    split
    · exact ⟨_, _, rfl, by simp, drop_suffix ..⟩
    · refine ⟨_, rest, rfl, ?_, suffix_cons ..⟩
      split <;> simp

section Other

variable {b : UInt8} (other : b ≠ 0xFF)

include other

/-- Bytes other than the marker are copied, so a run at the beginning was there before. -/
theorem replicate_prefix_of_rleLoop
    (run : replicate j b <+: rleLoop fuel data) : replicate j b <+: data := by
  induction j generalizing fuel data with
  | zero => exact nil_prefix
  | succ j ih =>
    rw [replicate_succ] at run ⊢
    cases fuel with
    | zero => simp [rleLoop] at run
    | succ fuel =>
      cases data with
      | nil => simp [rleLoop] at run
      | cons byte rest =>
        rw [rleLoop] at run
        split at run
        · rw [cons_append, cons_prefix_cons] at run
          exact absurd run.1 other
        split at run
        · rw [cons_append, cons_prefix_cons] at run
          exact absurd run.1 other
        · rw [singleton_append, cons_prefix_cons] at run
          exact cons_prefix_cons.mpr ⟨run.1, ih run.2⟩

/-- Four equal bytes at the beginning are written as a run, which starts with the marker. -/
theorem le_three_of_prefix (run : replicate j b <+: rleLoop fuel data) : j ≤ 3 := by
  by_contra long
  have before := replicate_prefix_of_rleLoop other run
  obtain ⟨k, rfl⟩ : ∃ k, j = k + 4 := ⟨j - 4, by omega⟩
  obtain ⟨rest, rfl⟩ := before
  cases fuel with
  | zero => simp [rleLoop] at run
  | succ fuel =>
    rw [replicate_succ, cons_append] at run
    have counted : 4 ≤ runLength b (replicate (k + 3) b ++ rest) := by
      unfold runLength
      rw [takeWhile_append_of_pos (by simp), length_append, length_replicate]
      omega
    rw [rleLoop] at run
    simp only [if_pos counted, cons_append, cons_prefix_cons] at run
    exact other run.1

theorem le_seven_of_infix (run : replicate m b <:+: rleLoop fuel data) : m ≤ 7 := by
  induction fuel generalizing data with
  | zero =>
    have := run.length_le
    simp [rleLoop] at this
    omega
  | succ fuel ih =>
    obtain ⟨token, rest, output, short, -⟩ := rleLoop_succ fuel
    rw [output] at run
    rcases replicate_infix_append run with later | ⟨i, inToken, start⟩
    · exact ih later
    · have := le_three_of_prefix other start
      omega

end Other

theorem replicate_runLength_prefix (byte : UInt8) :
    replicate (runLength byte rest) byte <+: byte :: rest := by
  have equal : rest.takeWhile (· = byte) =
      replicate (rest.takeWhile (· = byte)).length byte :=
    eq_replicate_of_mem fun x mem =>
      of_decide_eq_true (all_eq_true.mp all_takeWhile x mem)
  have whole : replicate (1 + (rest.takeWhile (· = byte)).length) byte <+: byte :: rest := by
    rw [add_comm, replicate_succ, ← equal, cons_prefix_cons]
    exact ⟨rfl, takeWhile_prefix _⟩
  obtain ⟨k, sum⟩ := Nat.exists_eq_add_of_le
    (min_le_right 65535 (1 + (rest.takeWhile (· = byte)).length))
  refine IsPrefix.trans ⟨replicate k byte, ?_⟩ whole
  rw [← replicate_add, sum, runLength]

theorem runLength_eq_of_markers {byte : UInt8}
    (high : 0xFF = UInt8.ofNat (runLength byte rest / 256))
    (low : 0xFF = UInt8.ofNat (runLength byte rest % 256)) : runLength byte rest = 65535 := by
  have bound : runLength byte rest ≤ 65535 := min_le_left ..
  have high := congrArg UInt8.toNat high
  have low := congrArg UInt8.toNat low
  rw [UInt8.toNat_ofNat'] at high low
  change 255 = _ at high
  change 255 = _ at low
  omega

/-- Four markers in a row stand for a full run of the byte `0xFF`. -/
theorem marker_prefix_of_rleLoop (run : replicate j 0xFF <+: rleLoop fuel data) :
    replicate (65535 * (j / 4)) 0xFF <+: data := by
  induction fuel generalizing j data with
  | zero =>
    have := run.length_le
    simp [rleLoop] at this
    simp [this]
  | succ fuel ih =>
    by_cases short : j < 4
    · rw [Nat.div_eq_of_lt short]
      exact nil_prefix
    obtain ⟨k, rfl⟩ : ∃ k, j = k + 4 := ⟨j - 4, by omega⟩
    simp only [replicate_succ] at run
    cases data with
    | nil => simp [rleLoop] at run
    | cons byte rest =>
      rw [rleLoop] at run
      split at run
      · simp only [cons_append, cons_prefix_cons] at run
        obtain ⟨-, rfl, high, low, later⟩ := run
        have full := runLength_eq_of_markers high low
        obtain ⟨tail, split⟩ := replicate_runLength_prefix 0xFF
        rw [full] at later split
        have count : 65535 * ((k + 4) / 4) = 65535 + 65535 * (k / 4) := by omega
        have dropped : (0xFF :: rest).drop 65535 = tail := by
          rw [← split, drop_left' (length_replicate ..)]
        rw [count, replicate_add, ← split]
        exact (prefix_append_right_inj _).mpr (dropped ▸ ih later)
      · split at run
        · simp at run
        next literal =>
          rw [singleton_append, cons_prefix_cons] at run
          exact absurd run.1.symm literal

theorem marker_infix_of_rleLoop (run : replicate m 0xFF <:+: rleLoop fuel data) :
    replicate (65535 * ((m - 4) / 4)) 0xFF <:+: data := by
  induction fuel generalizing data with
  | zero =>
    have := run.length_le
    simp [rleLoop] at this
    simp [this]
  | succ fuel ih =>
    obtain ⟨token, rest, output, short, suffix⟩ := rleLoop_succ fuel
    rw [output] at run
    rcases replicate_infix_append run with later | ⟨i, inToken, start⟩
    · exact (ih later).trans suffix.isInfix
    · have long := (marker_prefix_of_rleLoop start).isInfix.trans suffix.isInfix
      exact replicate_infix_mono (Nat.mul_le_mul_left _ (by omega)) long

theorem run_of_runScan {before : List UInt8} {prev : UInt8} {currentRun maxRun : ℕ}
    (current : replicate currentRun prev <:+ before)
    (known : 8 ≤ maxRun → ∃ b, replicate 8 b <:+: before)
    (found : 8 ≤ runScan prev rest currentRun maxRun) : ∃ b, replicate 8 b <:+: before ++ rest := by
  induction rest generalizing before prev currentRun maxRun with
  | nil =>
    rw [append_nil]
    exact known found
  | cons byte rest ih =>
    rw [runScan] at found
    rw [← singleton_append, ← append_assoc]
    have stays : 8 ≤ maxRun → ∃ b, replicate 8 b <:+: before ++ [byte] := fun enough =>
      (known enough).imp fun b run => run.trans (prefix_append ..).isInfix
    split at found
    next same =>
      subst same
      have longer : replicate (currentRun + 1) byte <:+ before ++ [byte] := by
        obtain ⟨front, rfl⟩ := current
        exact ⟨front, by rw [replicate_succ', append_assoc]⟩
      refine ih longer (fun enough => ?_) found
      by_cases old : 8 ≤ maxRun
      · exact stays old
      · exact ⟨byte, replicate_infix_mono (by omega) longer.isInfix⟩
    · exact ih ⟨before, rfl⟩ stays found

theorem run_of_hasLongRuns (long : hasLongRuns data) : ∃ b, replicate 8 b <:+: data := by
  unfold hasLongRuns at long
  split at long
  · cases long
  next first rest sample =>
    have current : replicate 1 first <:+ [first] := ⟨[], rfl⟩
    obtain ⟨b, run⟩ := run_of_runScan current (by simp) (of_decide_eq_true long)
    refine ⟨b, run.trans ?_⟩
    rw [singleton_append, ← sample]
    exact take_prefix _ _ |>.isInfix

/-- Data with a long run is not the beginning of its own run-length encoding. -/
theorem rleCompress_not_prefix (long : hasLongRuns data) : ¬data <+: rleCompress data := by
  intro start
  obtain ⟨b, run⟩ := run_of_hasLongRuns long
  by_cases marker : b = 0xFF
  · subst marker
    -- a run of markers in the encoding stands for a longer one in the data, without end
    have every : ∀ n, replicate (8 + n) 0xFF <:+: data := by
      intro n
      induction n with
      | zero => exact run
      | succ n ih =>
        exact replicate_infix_mono (by omega)
          (marker_infix_of_rleLoop (ih.trans start.isInfix))
    have bound := (every data.length).length_le
    rw [length_replicate] at bound
    omega
  · have := le_seven_of_infix marker (run.trans start.isInfix)
    omega

/-! ## Lengths of what the match encoder writes -/

theorem length_lengthBytes (remaining : ℕ) :
    (lengthBytes remaining).length = remaining / 255 + 1 := by
  rw [lengthBytes, length_append, length_replicate, length_singleton]

theorem length_emitSequence_le (literals : List UInt8) (matchLen offset : ℕ) :
    (emitSequence literals matchLen offset).length ≤
      literals.length + literals.length / 255 + matchLen / 255 + 5 := by
  simp only [emitSequence]
  split_ifs <;> simp only [length_append, length_cons, length_nil, length_lengthBytes] <;> omega

variable (input : List UInt8)

theorem lt_length_encodeLiteralsOnly : input.length < (encodeLiteralsOnly input).length := by
  simp only [encodeLiteralsOnly, emitSequence, length_cons, length_append]
  omega

theorem length_lz4SimpleCompress_ne : (lz4SimpleCompress input).length ≠ input.length := by
  unfold lz4SimpleCompress
  split
  · exact (lt_length_encodeLiteralsOnly input).ne'
  split
  · exact (lt_length_encodeLiteralsOnly input).ne'
  next shorter => exact (not_le.mp shorter).ne

/-! ## The text that its literal encoding begins with -/

theorem commonLength_append (xs ys zs : List UInt8) :
    commonLength (xs ++ ys) (xs ++ zs) = xs.length + commonLength ys zs := by
  induction xs with
  | nil => simp
  | cons x xs ih =>
    rw [cons_append, cons_append, commonLength, if_pos rfl, length_cons]
    omega

theorem commonLength_of_prefix (start : ys <+: xs) : commonLength xs ys = ys.length := by
  obtain ⟨rest, rfl⟩ := start
  have := commonLength_append ys rest []
  rw [append_nil] at this
  rw [this]
  cases rest <;> rfl

section Loop

variable {input out : List UInt8} {fuel anchor pos : ℕ} {hashTable : ℕ → ℕ}

theorem lz4Loop_skip (room : pos + 4 ≤ input.length)
    (other : ¬Matches input (hashTable (hash4 (input.drop pos))) pos) :
    lz4Loop input (fuel + 1) hashTable anchor pos out = lz4Loop input fuel
        (Function.update hashTable (hash4 (input.drop pos)) (pos % 2 ^ 32)) anchor (pos + 1)
        out := by
  rw [lz4Loop]
  simp [if_pos room, if_neg other]

theorem lz4Loop_match (room : pos + 4 ≤ input.length) {candidate length : ℕ}
    (slot : hashTable (hash4 (input.drop pos)) = candidate) (found : Matches input candidate pos)
    (extent : matchLength input candidate pos = length) :
    lz4Loop input (fuel + 1) hashTable anchor pos out = lz4Loop input fuel
        (Function.update hashTable (hash4 (input.drop pos)) (pos % 2 ^ 32))
        (pos + length) (pos + length) (out ++ emitSequence
          ((input.drop anchor).take (pos - anchor)) length (pos - candidate)) := by
  rw [lz4Loop]
  simp [if_pos room, slot, if_pos found, extent]

theorem lz4Loop_end (full : ¬pos + 4 ≤ input.length) :
    lz4Loop input fuel hashTable anchor pos out = (out, anchor) := by
  cases fuel with
  | zero => rfl
  | succ fuel =>
    rw [lz4Loop]
    simp [if_neg full]

end Loop

theorem hash4_cons (a b c d : UInt8) (w : List UInt8) : hash4 (a :: b :: c :: d :: w) =
    (a.toNat + 256 * (b.toNat + 256 * (c.toNat + 256 * d.toNat))) * 2654435761 % 2 ^ 32 /
      2 ^ 20 := by
  simp [hash4]

variable (w : List UInt8)

theorem hash4_first : hash4 (0xF0 :: 0xFF :: 0xFF :: 0xFF :: w) = 456 := by
  rw [hash4_cons]
  decide +kernel

theorem hash4_run : hash4 (0xFF :: 0xFF :: 0xFF :: 0xFF :: w) = 1564 := by
  rw [hash4_cons]
  decide +kernel

theorem hash4_last : hash4 (0xF1 :: 0xF0 :: 0xFF :: 0xFF :: w) = 1961 := by
  rw [hash4_cons]
  decide +kernel

/-- A text that repeats itself after `0xF0`, a run of `0xFF` and `0xF1` is written as two
sequences: the run as a match of itself, and everything behind the first period as a match
of the beginning. -/
theorem lz4Sequences_periodic {input : List UInt8} {k : ℕ}
    (repeats : input = 0xF0 :: (replicate (k + 5) 0xFF ++ 0xF1 :: rest))
    (start : rest <+: input) (room : 4 ≤ rest.length) (short : rest.length ≤ 65535)
    (near : k + 7 ≤ 65535) : lz4Sequences input =
      emitSequence [0xF0, 0xFF] (k + 4) 1 ++ emitSequence [0xF1] rest.length (k + 7) := by
  -- the text at the positions that the loop visits
  have size : input.length = k + rest.length + 2 + 5 := by
    rw [repeats]
    simp only [length_cons, length_append, length_replicate]
    omega
  have at0 : input.drop 0 =
      0xF0 :: 0xFF :: 0xFF :: 0xFF :: (replicate (k + 2) 0xFF ++ 0xF1 :: rest) := by
    rw [repeats]
    rfl
  have at1 : input.drop 1 = replicate (k + 4) 0xFF ++ 0xFF :: 0xF1 :: rest := by
    rw [repeats, drop_one, tail_cons, replicate_succ', append_assoc]
    rfl
  have at2 : input.drop 2 = replicate (k + 4) 0xFF ++ 0xF1 :: rest := by
    rw [repeats]
    rfl
  have at3 : input.drop (2 + (k + 4)) = 0xF1 :: rest := by
    rw [← drop_drop, at2, drop_left' (length_replicate ..)]
  have at4 : input.drop (2 + (k + 4) + 1) = rest := by
    rw [← drop_drop, at3]
    rfl
  obtain ⟨tail, again⟩ : ∃ tail, rest = 0xF0 :: 0xFF :: 0xFF :: 0xFF :: tail := by
    have taken := prefix_iff_eq_take.mp start
    obtain ⟨n, count⟩ : ∃ n, rest.length = n + 4 := ⟨rest.length - 4, by omega⟩
    rw [drop_zero] at at0
    rw [at0, count] at taken
    exact ⟨_, taken⟩
  have hash0 : hash4 (input.drop 0) = 456 := by rw [at0, hash4_first]
  have hash1 : hash4 (input.drop 1) = 1564 := by rw [at1]; exact hash4_run _
  have hash2 : hash4 (input.drop 2) = 1564 := by rw [at2]; exact hash4_run _
  have hash3 : hash4 (input.drop (2 + (k + 4))) = 1961 := by rw [at3, again, hash4_last]
  have hash4' : hash4 (input.drop (2 + (k + 4) + 1)) = 456 := by rw [at4, again, hash4_first]
  -- the first two positions have no match
  have none0 : ¬Matches input 0 0 := fun found => lt_irrefl 0 found.1
  have none1 : ¬Matches input 0 1 := by
    rintro ⟨-, -, same⟩
    rw [at0, at1] at same
    cases same
  -- the third matches the second, up to the end of the run
  have match2 : Matches input 1 2 := ⟨by omega, by omega, by rw [at1, at2]; rfl⟩
  have length2 : matchLength input 1 2 = k + 4 := by
    rw [matchLength, at1, at2, commonLength_append, length_replicate]
    change min 65535 (k + 4 + 0) = k + 4
    omega
  -- the last byte of the period has no match, and the next period matches the first
  have none3 : ¬Matches input 0 (2 + (k + 4)) := by
    rintro ⟨-, -, same⟩
    rw [at0, at3, again] at same
    cases same
  have match4 : Matches input 0 (2 + (k + 4) + 1) :=
    ⟨by omega, by omega, by rw [at0, at4, again]; rfl⟩
  have length4 : matchLength input 0 (2 + (k + 4) + 1) = rest.length := by
    rw [matchLength, at4, drop_zero, commonLength_of_prefix start]
    omega
  have loop : lz4Loop input input.length (fun _ => 0) 0 0 [] =
      (emitSequence [0xF0, 0xFF] (k + 4) 1 ++ emitSequence [0xF1] rest.length (k + 7),
        input.length) := by
    rw [size, lz4Loop_skip (by omega) (by exact none0), hash0, lz4Loop_skip (by omega) ?_, hash1,
      lz4Loop_match (by omega) ?_ match2 length2, hash2, lz4Loop_skip (by omega) ?_, hash3,
      lz4Loop_match (by omega) ?_ match4 length4, lz4Loop_end (by omega)]
    · have distance : 2 + (k + 4) + 1 - 0 = k + 7 := by omega
      have stop : 2 + (k + 4) + 1 + rest.length = k + rest.length + 2 + 5 := by omega
      rw [at0, at3, Nat.add_sub_cancel_left, distance, stop]
      rfl
    · rw [hash4']
      rfl
    · rw [hash3]
      exact none3
    · rw [hash2]
      rfl
    · rw [hash1]
      exact none1
  rw [lz4Sequences, loop]
  simp

/-- What the encoding of 65536 literals starts with. -/
def literalHeader : List UInt8 := 0xF0 :: (replicate 256 0xFF ++ [0xF1])

theorem encodeLiteralsOnly_of_length {input : List UInt8} (length : input.length = 65536) :
    encodeLiteralsOnly input = literalHeader ++ input := by
  simp only [encodeLiteralsOnly, emitSequence, length, lt_irrefl, if_false, append_nil]
  rfl

theorem length_literalHeader : literalHeader.length = 258 := by
  rw [literalHeader, length_cons, length_append, length_replicate, length_singleton]

/-- The text that repeats the header. -/
theorem periodic_of_prefix {input : List UInt8} (length : input.length = 65536)
    (start : input <+: literalHeader ++ input) :
    ∃ rest, input = literalHeader ++ rest ∧ rest <+: input ∧ rest.length = 65278 := by
  refine ⟨input.take 65278, ?_, take_prefix .., by rw [length_take, length]; rfl⟩
  have taken := prefix_iff_eq_take.mp start
  rwa [length, take_append, length_literalHeader,
    take_of_length_le (by rw [length_literalHeader]; norm_num)] at taken

/-- No text is the beginning of its own encoding. -/
theorem lz4SimpleCompress_take_ne : (lz4SimpleCompress input).take 65536 ≠ input := by
  intro same
  by_cases whole : (lz4SimpleCompress input).length ≤ 65536
  · rw [take_of_length_le whole] at same
    exact length_lz4SimpleCompress_ne input (congrArg length same)
  have length : input.length = 65536 := by
    have := congrArg length same
    rw [length_take] at this
    omega
  unfold lz4SimpleCompress at same whole
  rw [if_neg (by omega)] at same whole
  split at same
  next long =>
    rw [encodeLiteralsOnly_of_length length] at same
    have begins : input <+: literalHeader ++ input := by
      conv_lhs => rw [← same]
      exact take_prefix ..
    obtain ⟨rest, repeats, start, count⟩ := periodic_of_prefix length begins
    have period : input = 0xF0 :: (replicate (251 + 5) 0xFF ++ 0xF1 :: rest) := by
      rw [repeats, literalHeader, cons_append, append_assoc, singleton_append]
    have sequences := lz4Sequences_periodic period start (by omega) (by omega) (by omega)
    rw [sequences, length_append] at long
    have first := length_emitSequence_le [0xF0, 0xFF] (251 + 4) 1
    have second := length_emitSequence_le [0xF1] rest.length (251 + 7)
    simp only [length_cons, length_nil] at first second
    omega
  next shorter =>
    rw [if_neg shorter] at whole
    omega

/-! ## Compression is never the identity -/

/-- What is stored begins with the data itself exactly if the data is not compressed at all. -/
theorem compress_take_eq_iff (h : Heuristics) (data : List UInt8) (category : FileCategory) :
    (compress data (selectCompression h data category)).take 65536 = data ↔
      selectCompression h data category = .none ∧ data.length ≤ 65536 := by
  cases method : selectCompression h data category with
  | none => simp [compress]
  | rle =>
    -- the run-length encoder is chosen for data with long runs only
    have long : hasLongRuns data := by
      unfold selectCompression at method
      grind
    simp only [reduceCtorEq, false_and, iff_false]
    intro same
    refine rleCompress_not_prefix long ?_
    conv_lhs => rw [← same]
    exact take_prefix ..
  | lz4Simple => simpa [compress] using lz4SimpleCompress_take_ne data

end SmartOs.SmartFs
